import Codemod.Proofs.Disk
import Codemod.Proofs.Project.BuildConfig
import Codemod.Proofs.Syntax.Spelling

/-!
# Codemod.Proofs.Module.Appending

What a list of entries makes of the text behind the last property of an object.

The text up to the closing brace is taken apart without the search for the comma: blanks, comments
and at most one comma (`ObjectLiteral.Tail`). Once entries are added the text is a row of such parts
with the entries among them (`Part`), so an entry cannot be in a comment, and the commas between
neighbours can be counted (`Part.separators`).

* `trailingComma?_tail`: the comma that is found is the one of the tail, as long as no comment with
  a comma in it stands behind a line comment that ends otherwise than with a line feed.
* `Edit.applyAll_inserts`: insertions at one place come out in order.
* `append_all_separated`: the entries are in order, with one comma before each of them.
-/

namespace Codemod

open Lexer (isGapText isBreak)

/-- What ends a line. -/
inductive LineEnd where
  | lineFeed
  | returnFeed
  | carriageReturn
  | lineSeparator
  | paragraphSeparator
  deriving DecidableEq

namespace LineEnd

def text : LineEnd → Text
  | .lineFeed => ['\n']
  | .returnFeed => ['\r', '\n']
  | .carriageReturn => ['\r']
  | .lineSeparator => ['\u2028']
  | .paragraphSeparator => ['\u2029']

/-- No line feed is part of it. -/
def isBare : LineEnd → Bool
  | .lineFeed | .returnFeed => false
  | .carriageReturn | .lineSeparator | .paragraphSeparator => true

end LineEnd

/-- What may stand between two tokens. A line comment has the end of its line with it. -/
inductive Trivium where
  | blanks (s : Text) (h : isGapText s = true)
  | lineComment (body : Text) (ending : LineEnd) (h : ∀ c ∈ body, isBreak c = false)
  | blockComment (body : Text) (h : Text.holds ['*', '/'] body = false)
  deriving DecidableEq

namespace Trivium

def text : Trivium → Text
  | .blanks s _ => s
  | .lineComment body ending _ => '/' :: '/' :: (body ++ ending.text)
  | .blockComment body _ => '/' :: '*' :: (body ++ ['*', '/'])

/-- A line comment that ends otherwise than with a line feed. -/
def endsBare : Trivium → Bool
  | .lineComment _ ending _ => ending.isBare
  | _ => false

/-- The text of several of them. -/
def texts (ts : List Trivium) : Text :=
  ts.flatMap text

@[simp] theorem texts_nil : texts [] = [] := rfl

@[simp] theorem texts_cons (t : Trivium) (ts : List Trivium) : texts (t :: ts) = t.text ++ texts ts :=
  rfl

theorem not_mem_texts {c : Char} {ts : List Trivium} (h : ∀ t ∈ ts, c ∉ t.text) : c ∉ texts ts := by
  simpa [texts, List.mem_flatMap] using h

end Trivium

/-- A block comment does not end within its text. -/
theorem block_goes_on {c : Char} {body rest cs : Text}
    (h : List.isPrefixOf ['*', '/'] (c :: body) = false) (hc : c = '*')
    (hcs : body ++ '*' :: '/' :: rest = '/' :: cs) : False := by
  subst hc
  cases body with
  | nil => simp at hcs
  | cons d body =>
    obtain ⟨rfl, -⟩ := List.cons.inj hcs
    simp at h

section Skip

open Lexer (skip)

theorem skip_rest (newline : Bool) (comment : Option Span) (began offset : Nat) (text : Text) :
    (skip newline comment .blank began offset text).rest =
      (skip false none .blank 0 0 text).rest := by
  cases newline with
  | false => exact (Lexer.skip_offset false .blank comment none began 0 offset 0 text).1
  | true =>
    rw [(Lexer.skip_newline false .blank comment began offset text).1]
    exact (Lexer.skip_offset false .blank comment none began 0 offset 0 text).1

theorem skip_line {body : Text} (h : ∀ c ∈ body, isBreak c = false) {c : Char}
    (hc : isBreak c = true) (comment : Option Span) (began offset : Nat) (rest : Text) :
    (skip false comment .line began offset (body ++ c :: rest)).rest =
      (skip false none .blank 0 0 rest).rest := by
  induction body generalizing offset with
  | nil =>
    rw [List.nil_append, skip, if_pos hc]
    exact skip_rest ..
  | cons d body ih =>
    rw [List.cons_append, skip, if_neg (by simp [h d List.mem_cons_self])]
    exact ih (fun x hx => h x (List.mem_cons_of_mem _ hx)) _

theorem skip_block {body : Text} (h : Text.holds ['*', '/'] body = false) (newline : Bool)
    (comment : Option Span) (began offset : Nat) (rest : Text) :
    (skip newline comment .block began offset (body ++ '*' :: '/' :: rest)).rest =
      (skip false none .blank 0 0 rest).rest := by
  induction body generalizing newline offset with
  | nil =>
    rw [List.nil_append, skip]
    exact skip_rest ..
  | cons c body ih =>
    rw [Text.holds, Bool.or_eq_false_iff] at h
    rw [List.cons_append, skip]
    · exact ih h.2 _ _
    · exact fun cs hc hcs => block_goes_on h.1 hc hcs

/-- What may stand between two tokens is what the lexer skips. -/
theorem skip_trivium (t : Trivium) (rest : Text) :
    (skip false none .blank 0 0 (t.text ++ rest)).rest = (skip false none .blank 0 0 rest).rest := by
  cases t with
  | blanks s h =>
    rw [Trivium.text, Lexer.skip_gap h]
    exact skip_rest ..
  | blockComment body h =>
    simp only [Trivium.text, List.cons_append, List.append_assoc, List.nil_append, skip]
    exact skip_block h ..
  | lineComment body ending h =>
    simp only [Trivium.text, List.cons_append, List.append_assoc, skip]
    cases ending with
    | returnFeed =>
      refine (skip_line (c := '\r') h rfl _ _ _ ('\n' :: rest)).trans ?_
      exact skip_rest true none 0 1 rest
    | lineFeed => exact skip_line h rfl ..
    | carriageReturn => exact skip_line h rfl ..
    | lineSeparator => exact skip_line h rfl ..
    | paragraphSeparator => exact skip_line h rfl ..

end Skip

section Search

theorem trailingCommaFrom_blanks {s : Text} (h : isGapText s = true) (offset : Nat) (rest : Text) :
    trailingCommaFrom offset .plain (s ++ rest) =
      trailingCommaFrom (offset + s.size) .plain rest := by
  induction s generalizing offset with
  | nil => rfl
  | cons c s ih =>
    rw [isGapText, List.all_cons, Bool.and_eq_true] at h
    have hslash := Lexer.not_slash_of_isGap h.1
    have hcomma : c ≠ ',' := by
      rintro rfl
      exact absurd h.1 (by decide)
    rw [List.cons_append, trailingCommaFrom, if_neg hcomma, ih h.2, Text.size_cons, Nat.add_assoc]
    · exact fun _ heq => absurd heq hslash
    · exact fun _ heq => absurd heq hslash

/-- A line comment goes on up to a line feed. -/
theorem trailingCommaFrom_line {s : Text} (h : '\n' ∉ s) (offset : Nat) (rest : Text) :
    trailingCommaFrom offset .lineComment (s ++ rest) =
      trailingCommaFrom (offset + s.size) .lineComment rest := by
  induction s generalizing offset with
  | nil => rfl
  | cons c s ih =>
    rw [List.mem_cons, not_or] at h
    rw [List.cons_append, trailingCommaFrom, if_neg (Ne.symm h.1), ih h.2, Text.size_cons,
      Nat.add_assoc]

theorem trailingCommaFrom_block {s : Text} (h : Text.holds ['*', '/'] s = false) (offset : Nat)
    (rest : Text) :
    trailingCommaFrom offset .blockComment (s ++ '*' :: '/' :: rest) =
      trailingCommaFrom (offset + s.size + 2) .plain rest := by
  induction s generalizing offset with
  | nil => rfl
  | cons c s ih =>
    rw [Text.holds, Bool.or_eq_false_iff] at h
    rw [List.cons_append, trailingCommaFrom, ih h.2, Text.size_cons, Nat.add_assoc offset]
    exact fun cs hc hcs => block_goes_on h.1 hc hcs

theorem not_feed_mem {body : Text} (h : ∀ c ∈ body, isBreak c = false) : '\n' ∉ body := by
  intro hmem
  exact absurd (h _ hmem) (by decide)

/-- The search passes over a comment that ends with a line feed, or with `*/`. -/
theorem trailingCommaFrom_trivium {t : Trivium} (h : t.endsBare = false) (offset : Nat)
    (rest : Text) :
    trailingCommaFrom offset .plain (t.text ++ rest) =
      trailingCommaFrom (offset + t.text.size) .plain rest := by
  have hslash : ('/' : Char).utf8Size = 1 := rfl
  cases t with
  | blanks s hs => exact trailingCommaFrom_blanks hs offset rest
  | blockComment body hbody =>
    have hend : ('*' : Char).utf8Size = 1 := rfl
    have hstep := trailingCommaFrom_block hbody (offset + 2) rest
    simp only [Trivium.text, List.cons_append, List.append_assoc, List.nil_append,
      trailingCommaFrom, hstep, Text.size_cons, Text.size_append, Text.size_nil, hslash, hend]
    congr 1
    omega
  | lineComment body ending hbody =>
    have hreturn : ('\r' : Char).utf8Size = 1 := rfl
    have hfeed : ('\n' : Char).utf8Size = 1 := rfl
    have hstep := trailingCommaFrom_line (not_feed_mem hbody) (offset + 2) (ending.text ++ rest)
    simp only [Trivium.text, List.cons_append, List.append_assoc, trailingCommaFrom, hstep,
      Text.size_cons, Text.size_append, hslash]
    cases ending with
    | lineFeed =>
      simp only [LineEnd.text, List.cons_append, List.nil_append, trailingCommaFrom, if_true,
        Text.size_cons, Text.size_nil, hfeed]
      congr 1
      omega
    | returnFeed =>
      simp only [LineEnd.text, List.cons_append, List.nil_append, trailingCommaFrom, if_true,
        Text.size_cons, Text.size_nil, hfeed, hreturn,
        show ('\r' : Char) ≠ '\n' by decide, if_false]
      congr 1
      omega
    | carriageReturn | lineSeparator | paragraphSeparator => cases h

/-- For the search, a line comment without a line feed goes on behind its end. -/
theorem trailingCommaFrom_bare {t : Trivium} (h : t.endsBare = true) (offset : Nat) (rest : Text) :
    trailingCommaFrom offset .plain (t.text ++ rest) =
      trailingCommaFrom (offset + t.text.size) .lineComment rest := by
  cases t with
  | blanks => cases h
  | blockComment => cases h
  | lineComment body ending hbody =>
    have hslash : ('/' : Char).utf8Size = 1 := rfl
    have hending : '\n' ∉ ending.text := by
      cases ending with
      | lineFeed | returnFeed => cases h
      | carriageReturn | lineSeparator | paragraphSeparator => decide
    have hbody : '\n' ∉ body ++ ending.text := by
      rw [List.mem_append, not_or]
      exact ⟨not_feed_mem hbody, hending⟩
    have hstep := trailingCommaFrom_line hbody (offset + 2) rest
    simp only [Trivium.text, List.cons_append, trailingCommaFrom, hstep, Text.size_cons, hslash]
    congr 1
    omega

end Search

namespace ObjectLiteral

/-- The text between the last property of an object and its closing brace: what stands before a
comma, and what stands behind it where there is one. -/
structure Tail where
  before : List Trivium
  after : Option (List Trivium)

/-- What stands behind the last property once entries are added. -/
inductive Part where
  | trivium (t : Trivium)
  | comma
  | entry (e : Text)

namespace Part

def text : Part → Text
  | .trivium t => t.text
  | .comma => [',']
  | .entry e => e

def entry? : Part → Option Text
  | .entry e => some e
  | _ => none

/-- How many commas there are before the first entry, between neighbours, and behind the last. -/
def separators : List Part → List Nat
  | [] => [0]
  | .entry _ :: parts => 0 :: separators parts
  | .trivium _ :: parts => separators parts
  | .comma :: parts => (separators parts).modifyHead (· + 1)

end Part

namespace Tail

/-- The blanks and comments, in order. -/
def trivia (tail : Tail) : List Trivium :=
  tail.before ++ tail.after.getD []

def parts (tail : Tail) : List Part :=
  tail.before.map .trivium ++
    match tail.after with
    | none => []
    | some after => .comma :: after.map .trivium

def text (tail : Tail) : Text :=
  tail.parts.flatMap Part.text

/-- The number of commas outside comments. -/
def commas (tail : Tail) : Nat :=
  if tail.after.isSome then 1 else 0

/-- No comment with a comma in it stands behind a line comment that ends otherwise than with a line
feed. -/
def Clear (tail : Tail) : Prop :=
  tail.trivia.Pairwise fun a b => a.endsBare = true → ',' ∉ b.text

instance (tail : Tail) : Decidable tail.Clear :=
  inferInstanceAs (Decidable (List.Pairwise _ _))

theorem flatMap_trivium (ts : List Trivium) :
    (ts.map Part.trivium).flatMap Part.text = Trivium.texts ts := by
  rw [List.flatMap_map]
  rfl

theorem text_none (before : List Trivium) : text ⟨before, none⟩ = Trivium.texts before := by
  simp [text, parts, flatMap_trivium]

theorem text_some (before after : List Trivium) :
    text ⟨before, some after⟩ = Trivium.texts before ++ ',' :: Trivium.texts after := by
  simp [text, parts, flatMap_trivium, Part.text]

end Tail

/-- Where the tail has its only comma, no other one is found. -/
theorem trailingCommaFrom_only {offset i : Nat} {search : CommaSearch} {front back : Text}
    (hfront : ',' ∉ front) (hback : ',' ∉ back)
    (h : trailingCommaFrom offset search (front ++ ',' :: back) = some i) :
    i = offset + front.size := by
  obtain ⟨front', back', heq, rfl⟩ := trailingCommaFrom_eq_some h
  rcases List.append_eq_append_iff.mp heq with ⟨mid, rfl, hmid⟩ | ⟨mid, rfl, hmid⟩
  · cases mid with
    | nil => simp
    | cons c mid =>
      obtain ⟨-, rfl⟩ := List.cons.inj hmid
      simp at hback
  · cases mid with
    | nil => simp
    | cons c mid =>
      obtain ⟨rfl, -⟩ := List.cons.inj hmid
      simp at hfront

/-- The search on the text of a tail, by induction on what stands before the comma. Behind a line
comment without a line feed it may miss the comma, and finds no other. -/
theorem trailingCommaFrom_tail (before : List Trivium) (after : Option (List Trivium))
    (h : Tail.Clear ⟨before, after⟩) (offset : Nat) :
    trailingCommaFrom offset .plain (Tail.text ⟨before, after⟩) = none ∨ after.isSome = true ∧
      trailingCommaFrom offset .plain (Tail.text ⟨before, after⟩) =
        some (offset + (Trivium.texts before).size) := by
  induction before generalizing offset with
  | nil =>
    cases after with
    | none => exact .inl rfl
    | some after => exact .inr ⟨rfl, rfl⟩
  | cons t before ih =>
    obtain ⟨ht, hrest⟩ := List.pairwise_cons.mp h
    have htext : Tail.text ⟨t :: before, after⟩ = t.text ++ Tail.text ⟨before, after⟩ := rfl
    rw [htext, Trivium.texts_cons, Text.size_append, ← Nat.add_assoc]
    cases hbare : t.endsBare with
    | false =>
      rw [trailingCommaFrom_trivium hbare]
      exact ih hrest _
    | true =>
      have hnone (b : Trivium) (hb : b ∈ before ++ after.getD []) : ',' ∉ b.text := ht b hb hbare
      have hbefore : ',' ∉ Trivium.texts before :=
        Trivium.not_mem_texts fun b hb => hnone b (List.mem_append_left _ hb)
      rw [trailingCommaFrom_bare hbare]
      cases hfound : trailingCommaFrom (offset + t.text.size) .lineComment
          (Tail.text ⟨before, after⟩) with
      | none => exact .inl rfl
      | some i =>
        cases after with
        | none =>
          obtain ⟨front, back, heq, -⟩ := trailingCommaFrom_eq_some hfound
          rw [Tail.text_none] at heq
          simp [heq] at hbefore
        | some after =>
          have hafter : ',' ∉ Trivium.texts after :=
            Trivium.not_mem_texts fun b hb => hnone b (List.mem_append_right _ hb)
          rw [Tail.text_some] at hfound
          rw [trailingCommaFrom_only hbefore hafter hfound]
          exact .inr ⟨rfl, rfl⟩

theorem trailingComma?_tail {tail : Tail} (h : tail.Clear) :
    trailingComma? tail.text = none ∨ ∃ after, tail.after = some after ∧
      trailingComma? tail.text = some (Trivium.texts tail.before).size := by
  obtain ⟨before, after⟩ := tail
  rcases trailingCommaFrom_tail before after h 0 with hnone | ⟨hsome, hfound⟩
  · exact .inl hnone
  · obtain ⟨after, rfl⟩ := Option.isSome_iff_exists.mp hsome
    rw [Nat.zero_add] at hfound
    exact .inr ⟨after, rfl, hfound⟩

end ObjectLiteral

namespace Edit

theorem schedule_inserts (q : Nat) (texts : List Text) :
    schedule (texts.map (insert q)) = texts.reverse.map (insert q) := by
  have hplace (text : Text) (texts : List Text) :
      place (insert q text) (texts.map (insert q)) = (texts ++ [text]).map (insert q) := by
    induction texts with
    | nil => rfl
    | cons t texts ih =>
      have hleads : (insert q t).leads (insert q text) = true := by simp [leads, insert, Span.length]
      rw [List.map_cons, place, if_pos hleads, ih]
      rfl
  induction texts with
  | nil => rfl
  | cons text texts ih =>
    have hcons : schedule ((text :: texts).map (insert q)) =
        place (insert q text) (schedule (texts.map (insert q))) := rfl
    rw [hcons, ih, hplace, List.reverse_cons]

theorem splice_inserts (front back : Text) (floor : Nat) (texts : List Text) :
    splice floor (front ++ back) (texts.map (insert front.size)) =
      front ++ (texts.reverse.flatten ++ back) := by
  induction texts generalizing back floor with
  | nil => rfl
  | cons text texts ih =>
    have happly : (insert front.size text).apply (front ++ back) = front ++ (text ++ back) := by
      simp [apply, insert, Text.before_size_append, Text.after_size_append]
    have hkeep : (decide (floor < (insert front.size text).span.stop) &&
        (insert front.size text).span.start != (insert front.size text).span.stop) = false := by
      simp [insert]
    rw [List.map_cons, splice, hkeep, happly]
    simp only [Bool.false_eq_true, if_false]
    rw [ih]
    simp

/-- Insertions at one place come out in order. -/
theorem applyAll_inserts (front back : Text) (texts : List Text) :
    applyAll (front ++ back) (texts.map (insert front.size)) =
      front ++ (texts.flatten ++ back) := by
  rw [applyAll, schedule_inserts, splice_inserts, List.reverse_reverse]

end Edit

namespace ObjectLiteral

/-- What stands between a comma and the entry that is added behind it. -/
def separator (o : ObjectLiteral) (source : Text) (last : Node) : Text :=
  if (source.slice o.span.start (o.span.stop - 1)).contains '\n' then
    '\n' :: source.indentAt last.span.start
  else [' ']

theorem isGapText_separator (o : ObjectLiteral) (source : Text) (last : Node) :
    isGapText (o.separator source last) = true := by
  rw [separator]
  split
  · rw [isGapText, List.all_cons, ← isGapText, Lexer.isGapText_indentAt]
    rfl
  · rfl

variable {o : ObjectLiteral} {source : Text} {last : Node}

theorem append_of_none (hlast : o.properties.getLast? = some last)
    (h : trailingComma? (source.slice last.span.stop (o.span.stop - 1)) = none) :
    o.append source = fun entry =>
      .insert last.span.stop (',' :: (o.separator source last ++ entry)) := by
  funext entry
  simp only [append, hlast, h, separator]
  split <;> rfl

theorem append_of_some {i : Nat} (hlast : o.properties.getLast? = some last)
    (h : trailingComma? (source.slice last.span.stop (o.span.stop - 1)) = some i) :
    o.append source = fun entry =>
      .insert (last.span.stop + i + 1) (o.separator source last ++ entry ++ [',']) := by
  funext entry
  simp only [append, hlast, h, separator]
  split <;> rfl

/-- The entries as they are added, each behind a comma. -/
def added (blank : Trivium) (entries : List Text) : List Part :=
  entries.flatMap fun e => [.comma, .trivium blank, .entry e]

section Added

variable (blank : Trivium) (entries : List Text) (parts : List Part)

theorem separators_trivia (ts : List Trivium) :
    Part.separators (ts.map .trivium ++ parts) = Part.separators parts := by
  induction ts with
  | nil => rfl
  | cons t ts ih => exact ih

theorem separators_tail (tail : Tail) : Part.separators tail.parts = [tail.commas] := by
  obtain ⟨before, after⟩ := tail
  rw [Tail.parts, separators_trivia]
  cases after with
  | none => rfl
  | some after =>
    rw [Part.separators, ← List.append_nil (after.map _), separators_trivia]
    rfl

theorem separators_added :
    Part.separators (added blank entries ++ parts) =
      List.replicate entries.length 1 ++ Part.separators parts := by
  induction entries with
  | nil => rfl
  | cons e entries ih =>
    have hcons : added blank (e :: entries) ++ parts =
        .comma :: .trivium blank :: .entry e :: (added blank entries ++ parts) := rfl
    rw [hcons, Part.separators, Part.separators, Part.separators, ih]
    rfl

theorem entries_tail (tail : Tail) : tail.parts.filterMap Part.entry? = [] := by
  obtain ⟨before, after⟩ := tail
  rw [List.filterMap_eq_nil_iff]
  intro part hpart
  rcases List.mem_append.mp hpart with h | h
  · obtain ⟨t, -, rfl⟩ := List.mem_map.mp h
    rfl
  · cases after with
    | none => cases h
    | some after =>
      rcases List.mem_cons.mp h with rfl | h
      · rfl
      · obtain ⟨t, -, rfl⟩ := List.mem_map.mp h
        rfl

theorem entries_added : (added blank entries).filterMap Part.entry? = entries := by
  induction entries with
  | nil => rfl
  | cons e entries ih => exact congrArg (e :: ·) ih

theorem text_added (sep : Text) (h : isGapText sep = true) :
    (added (.blanks sep h) entries).flatMap Part.text =
      (entries.map fun e => ',' :: (sep ++ e)).flatten := by
  induction entries with
  | nil => rfl
  | cons e entries ih =>
    have hcons : (added (.blanks sep h) (e :: entries)).flatMap Part.text =
        [','] ++ (sep ++ (e ++ (added (.blanks sep h) entries).flatMap Part.text)) := rfl
    simp [hcons, ih]

/-- A comma behind each entry, after one that is there already, is a comma before each of them. -/
theorem comma_cons_flatten (sep : Text) :
    ',' :: (entries.map fun e => sep ++ e ++ [',']).flatten =
      (entries.map fun e => ',' :: (sep ++ e)).flatten ++ [','] := by
  induction entries with
  | nil => rfl
  | cons e entries ih => simpa using ih

end Added

/-- The object ends with a tail: `front` is the text up to the end of its last property, and `back`
comes after its closing brace. -/
structure TailAt (o : ObjectLiteral) (source front : Text) (tail : Tail) (back : Text) : Prop where
  source : source = front ++ (tail.text ++ '\x7d' :: back)
  property : o.properties.getLast?.map (·.span.stop) = some front.size
  brace : (front ++ tail.text).size + 1 = o.span.stop

/-- The text has entries in the tail of an object, all of which is still there: between `front` and
`back` is a row of blanks, comments, commas and entries. One comma stands before each entry, and
behind the last one there are as many as the tail had. -/
structure Separated (text front : Text) (tail : Tail) (back : Text) (entries : List Text)
    (parts : List Part) : Prop where
  written : text = front ++ (parts.flatMap Part.text ++ '\x7d' :: back)
  kept : tail.parts.Sublist parts
  inOrder : parts.filterMap Part.entry? = entries
  spaced : Part.separators parts = List.replicate entries.length 1 ++ [tail.commas]

/-- Where the entries go: some of the blanks and comments of the tail stay before them. -/
theorem applyAll_append {front back : Text} {tail : Tail} (entries : List Text)
    (h : o.TailAt source front tail back) (hclear : tail.Clear) :
    ∃ (blank : Trivium) (ts : List Trivium) (rest : List Part),
      tail.parts = ts.map .trivium ++ rest ∧
      Edit.applyAll source (entries.map (o.append source)) =
        front ++ ((ts.map Part.trivium ++ (added blank entries ++ rest)).flatMap Part.text ++
          '\x7d' :: back) := by
  obtain ⟨hsource, hproperty, hbrace⟩ := h
  obtain ⟨last, hlast, hfront⟩ := Option.map_eq_some_iff.mp hproperty
  have hslice : source.slice last.span.stop (o.span.stop - 1) = tail.text := by
    refine Text.slice_of_split hsource hfront.symm ?_
    rw [hfront, ← hbrace, Text.size_append]
    rfl
  rcases trailingComma?_tail hclear with hnone | ⟨after, hafter, hsome⟩
  · refine ⟨.blanks _ (isGapText_separator o source last), [], tail.parts, rfl, ?_⟩
    have hedits : entries.map (o.append source) =
        (entries.map fun e => ',' :: (o.separator source last ++ e)).map
          (Edit.insert front.size) := by
      rw [append_of_none hlast (hslice ▸ hnone), hfront, List.map_map]
      rfl
    rw [hedits]
    subst hsource
    rw [Edit.applyAll_inserts, List.map_nil, List.nil_append, List.flatMap_append, text_added,
      List.append_assoc]
    rfl
  · obtain ⟨before, _⟩ := tail
    subst hafter
    refine ⟨.blanks _ (isGapText_separator o source last), before, .comma :: after.map .trivium, rfl, ?_⟩
    have hcomma : (',' : Char).utf8Size = 1 := rfl
    have hedits : entries.map (o.append source) =
        (entries.map fun e => o.separator source last ++ e ++ [',']).map
          (Edit.insert (front ++ (Trivium.texts before ++ [','])).size) := by
      rw [append_of_some hlast (hslice ▸ hsome), hfront, List.map_map]
      simp only [Text.size_append, Text.size_cons, Text.size_nil, hcomma, Nat.add_assoc]
      rfl
    have hsplit : source = (front ++ (Trivium.texts before ++ [','])) ++
        (Trivium.texts after ++ '\x7d' :: back) := by
      rw [hsource, Tail.text_some]
      simp
    have htexts : (before.map Part.trivium ++ (added (.blanks _ (isGapText_separator o source last))
        entries ++ Part.comma :: after.map Part.trivium)).flatMap Part.text =
        Trivium.texts before ++ ((entries.map fun e => ',' :: (o.separator source last ++ e)).flatten ++
          [','] ++ Trivium.texts after) := by
      simp only [List.flatMap_append, List.flatMap_cons, text_added, Tail.flatMap_trivium, Part.text,
        List.append_assoc]
    rw [htexts, ← comma_cons_flatten, hedits, hsplit, Edit.applyAll_inserts, ← hsplit]
    simp only [List.append_assoc, List.cons_append, List.nil_append]

/-- Entries that are added to an object with a property stand in order behind the last one, each
after one comma and none in a comment, and a comma behind the last property stays one behind the
last entry. -/
theorem append_all_separated {front back : Text} {tail : Tail} (entries : List Text)
    (h : o.TailAt source front tail back) (hclear : tail.Clear) :
    ∃ parts, Separated (Edit.applyAll source (entries.map (o.append source))) front tail back
      entries parts := by
  obtain ⟨blank, ts, rest, hparts, htext⟩ := applyAll_append entries h hclear
  have hnone := entries_tail tail
  have hcommas := separators_tail tail
  rw [hparts, List.filterMap_append, List.append_eq_nil_iff] at hnone
  rw [hparts, separators_trivia] at hcommas
  refine ⟨_, htext, ?_, ?_, ?_⟩
  · rw [hparts]
    exact (List.Sublist.refl _).append (List.sublist_append_right _ _)
  · rw [List.filterMap_append, List.filterMap_append, hnone.1, hnone.2, entries_added,
      List.append_nil, List.nil_append]
  · rw [separators_trivia, separators_added, hcommas]

/-- Comments of both kinds with commas in them, on both sides of the comma. -/
def annotatedTail : Tail where
  before := [.blanks [' '] rfl, .blockComment " é, ".toList (by decide), .blanks [' '] rfl,
    .lineComment " b,".toList .returnFeed (by decide)]
  after := some [.blanks [' '] rfl, .lineComment ",".toList .lineFeed (by decide)]

set_option maxRecDepth 100000 in
theorem append_all_separated_annotated :
    let front : Text := "x = \x7b a: [1]".toList
    let source := front ++ (annotatedTail.text ++ "\x7d;".toList)
    let entries := ["b: 2".toList, "c".toList]
    ∃ script o, Script.parse ⟨"config/index.js"⟩ source = .ok script ∧
      o ∈ script.program.objects ∧ o.TailAt source front annotatedTail [';'] ∧
      annotatedTail.Clear ∧ Edit.applyAll source (entries.map (o.append source)) =
        "x = \x7b a: [1] /* é, */ // b,\r\n,\nb: 2,\nc, //,\n\x7d;".toList ∧
      ∃ parts, Separated (Edit.applyAll source (entries.map (o.append source))) front annotatedTail
        [';'] entries parts := by
  intro front source entries
  have hcheck : (Script.parse ⟨"config/index.js"⟩ source).toOption.any (fun script =>
      script.program.objects.any fun o =>
        o.properties.getLast?.map (·.span.stop) == some front.size &&
        (front ++ annotatedTail.text).size + 1 == o.span.stop &&
        Edit.applyAll source (entries.map (o.append source)) ==
          "x = \x7b a: [1] /* é, */ // b,\r\n,\nb: 2,\nc, //,\n\x7d;".toList) = true := by
    unfold entries source front
    repeat rw [String.toList_ofList]
    decide +kernel
  obtain ⟨script, hparse, hcheck⟩ := exists_ok_of_any hcheck
  obtain ⟨o, ho, hcheck⟩ := List.any_eq_true.mp hcheck
  rw [Bool.and_eq_true, Bool.and_eq_true, beq_iff_eq, beq_iff_eq, beq_iff_eq] at hcheck
  obtain ⟨⟨hproperty, hbrace⟩, htext⟩ := hcheck
  have htail : o.TailAt source front annotatedTail [';'] := ⟨rfl, hproperty, hbrace⟩
  have hclear : annotatedTail.Clear := by decide
  exact ⟨script, o, hparse, ho, htail, hclear, htext, append_all_separated entries htail hclear⟩

/-- A row of parts with an entry in it does not lead to the closing brace. -/
theorem skip_parts {parts : List Part} {entries : List Text} {c : Char} {e : Text}
    (hc : Lexer.isSolid c = true) (h : parts.filterMap Part.entry? = (c :: e) :: entries) (rest : Text) :
    ∃ d s, (Lexer.skip false none .blank 0 0 (parts.flatMap Part.text ++ rest)).rest = d :: s ∧
      (d = ',' ∨ d = c) := by
  induction parts with
  | nil => cases h
  | cons part parts ih =>
    cases part with
    | trivium t =>
      have htext : (Part.trivium t :: parts).flatMap Part.text ++ rest =
          t.text ++ (parts.flatMap Part.text ++ rest) := List.append_assoc ..
      rw [htext, skip_trivium]
      exact ih h
    | comma => exact ⟨',', _, congrArg Lexer.Skipped.rest (Lexer.skip_solid _ rfl ..), .inl rfl⟩
    | entry e' =>
      obtain ⟨rfl, -⟩ := List.cons.inj h
      exact ⟨c, _, congrArg Lexer.Skipped.rest (Lexer.skip_solid _ hc ..), .inr rfl⟩

/-- A comment with a comma in it, behind a line comment that a carriage return ends. -/
def hiddenTail : Tail where
  before := [.blanks [' '] rfl, .lineComment " c".toList .carriageReturn (by decide),
    .blockComment " ,\n, ".toList (by decide), .blanks [' '] rfl]
  after := none

set_option maxRecDepth 100000 in
/-- The entry goes into the comment. -/
theorem append_into_comment :
    let front : Text := "x = \x7b a: 1".toList
    let source := front ++ (hiddenTail.text ++ "\x7d".toList)
    ∃ script o, Script.parse ⟨"config/index.js"⟩ source = .ok script ∧
      o ∈ script.program.objects ∧ o.TailAt source front hiddenTail [] ∧
      Edit.applyAll source (["b: 2".toList].map (o.append source)) =
        "x = \x7b a: 1 // c\r/* ,\n,\nb: 2, */ \x7d".toList ∧
      ¬ ∃ parts, Separated (Edit.applyAll source (["b: 2".toList].map (o.append source))) front
        hiddenTail [] ["b: 2".toList] parts := by
  intro front source
  have hcheck : (Script.parse ⟨"config/index.js"⟩ source).toOption.any (fun script =>
      script.program.objects.any fun o =>
        o.properties.getLast?.map (·.span.stop) == some front.size &&
        (front ++ hiddenTail.text).size + 1 == o.span.stop &&
        Edit.applyAll source (["b: 2".toList].map (o.append source)) ==
          "x = \x7b a: 1 // c\r/* ,\n,\nb: 2, */ \x7d".toList) = true := by
    unfold source front
    repeat rw [String.toList_ofList]
    decide +kernel
  obtain ⟨script, hparse, hcheck⟩ := exists_ok_of_any hcheck
  obtain ⟨o, ho, hcheck⟩ := List.any_eq_true.mp hcheck
  rw [Bool.and_eq_true, Bool.and_eq_true, beq_iff_eq, beq_iff_eq, beq_iff_eq] at hcheck
  obtain ⟨⟨hproperty, hbrace⟩, htext⟩ := hcheck
  refine ⟨script, o, hparse, ho, ⟨rfl, hproperty, hbrace⟩, htext, ?_⟩
  rintro ⟨parts, hparts, -, hentries, -⟩
  -- what the lexer skips behind the property is all the text up to the brace
  have hrest : parts.flatMap Part.text ++ ['\x7d'] = " // c\r/* ,\n,\nb: 2, */ \x7d".toList := by
    have hfront : "x = \x7b a: 1 // c\r/* ,\n,\nb: 2, */ \x7d".toList =
        front ++ " // c\r/* ,\n,\nb: 2, */ \x7d".toList := by decide
    rw [htext, hfront] at hparts
    exact (List.append_cancel_left hparts).symm
  obtain ⟨d, s, hskip, hd⟩ := skip_parts (by decide) hentries ['\x7d']
  rw [hrest] at hskip
  have hbrace : (Lexer.skip false none .blank 0 0
      " // c\r/* ,\n,\nb: 2, */ \x7d".toList).rest = ['\x7d'] := by decide +kernel
  rw [hbrace] at hskip
  obtain ⟨rfl, -⟩ := List.cons.inj hskip
  exact absurd hd (by decide)

end ObjectLiteral

end Codemod
