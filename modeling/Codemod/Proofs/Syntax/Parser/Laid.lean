import Codemod.Proofs.Syntax.Layout
import Codemod.Proofs.Syntax.Lexer
import Codemod.Proofs.Syntax.Parser.Yields

/-!
# Codemod.Proofs.Syntax.Parser.Laid

The layout of what a parser has read so far.

`Laid source lo moved s ns` says that the parser, which stands in state `s`, has read the nodes `ns`
since offset `lo`, one behind the other. `moved` is false where nothing may have been read yet. A
token that is gone past moves the parser on (`Laid.next`), and what was read since the beginning of
a node makes up the node (`Laid.plain`).

* `Sound`: a parser for a node reads it from the current token on.
* `Emits`: a parser reads some more nodes, which its answer holds.
* `Passes`: a parser reads no nodes.
-/

namespace Codemod

namespace Lexeme

/-- Whether the lexeme has no blank at its ends: it is part of the program and not broken. -/
def isSolid : Lexeme → Bool
  | .markupText | .broken | .finish => false
  | _ => true

theorem Spelled.crisp {l : Lexeme} {body : Text} (h : l.Spelled body) (hl : l.isSolid = true) :
    body.Crisp := by
  cases l with
  | symbol x => exact h.2.1
  | markupText | broken | finish => cases hl
  | _ => exact h.1

end Lexeme

namespace Parser

/-- The current token stands in the source where the state says. -/
def Standing (source : Text) (s : State) : Prop :=
  s.lastStop ≤ s.token.span.start ∧
    ∃ front body, source = front ++ s.here ∧ s.here = body ++ s.rest ∧
      front.size = s.token.span.start ∧ s.token.span.stop = s.token.span.start + body.size ∧
      s.token.lexeme.Spelled body

/-- The parser stands outside of the content of markup, where a `;` is a symbol. -/
def Placed (source : Text) (s : State) : Prop :=
  Standing source s ∧ (s.here.head? = some ';' → s.token.is ";" = true)

/-- Since offset `lo` the nodes `ns` were read. -/
def Trail (source : Text) (lo : Nat) (s : State) (ns : List Node) : Prop :=
  lo < s.lastStop ∧ source.Opens lo ∧ Node.Row lo s.lastStop ns ∧ ∀ n ∈ ns, n.Tidy source

/-- Since offset `lo` the nodes `ns` were read, the last token of them just before the current one;
unless `moved`, perhaps no token was read at all. -/
def Laid (source : Text) (lo : Nat) (moved : Bool) (s : State) (ns : List Node) : Prop :=
  Placed source s ∧
    (Trail source lo s ns ∧ source.Closes s.lastStop ∨
      moved = false ∧ s.token.span.start = lo ∧ ns = [])

section Tokens

variable {t : Token} {x : String} {xs : List String}

theorem isSolid_of_is (h : t.is x = true) : t.lexeme.isSolid = true := by
  rw [Token.is] at h
  split at h
  · rename_i heq
    rw [heq]
    rfl
  · rename_i heq
    rw [heq]
    rfl
  · cases h

theorem is_eq_false {y : String} (h : t.is x = true) (hxy : x ≠ y) : t.is y = false := by
  rw [Token.is] at h ⊢
  split at h
  · rw [beq_iff_eq] at h
    simpa [h] using hxy
  · rw [Bool.and_eq_true, beq_iff_eq] at h
    simp [h.1, hxy]
  · cases h

theorem isSolid_of_isAny (h : t.isAny xs = true) : t.lexeme.isSolid = true := by
  obtain ⟨x, -, hx⟩ := List.any_eq_true.mp h
  exact isSolid_of_is hx

theorem isSolid_of_isWord (h : t.isWord = true) : t.lexeme.isSolid = true := by
  rw [Token.isWord] at h
  split at h
  · rename_i heq
    rw [heq]
    rfl
  · cases h

theorem isWord_of_isName (h : t.isName = true) : t.isWord = true := by
  rw [Token.isName] at h
  split at h
  · rename_i heq
    rw [Token.isWord, heq]
  · cases h

theorem isSolid_of_isName (h : t.isName = true) : t.lexeme.isSolid = true :=
  isSolid_of_isWord (isWord_of_isName h)

theorem isSolid_of_eq {l : Lexeme} (h : t.lexeme = l) (hl : l.isSolid = true) :
    t.lexeme.isSolid = true := by
  rw [h, hl]

end Tokens

section Placed

variable {source : Text} {s : State}

theorem Standing.le (h : Standing source s) : s.lastStop ≤ s.token.span.start :=
  h.1

theorem Placed.standing (h : Placed source s) : Standing source s :=
  h.1

theorem Standing.opens (h : Standing source s) (ht : s.token.lexeme.isSolid = true) :
    source.Opens s.token.span.start := by
  obtain ⟨front, body, hsource, hhere, hfront, -, hspelled⟩ := h.2
  obtain ⟨c, hc, hwhite⟩ := (hspelled.crisp ht).head
  obtain ⟨cs, rfl⟩ := List.head?_eq_some_iff.mp hc
  exact ⟨c, ⟨front, cs ++ s.rest, by rw [hsource, hhere]; rfl, hfront⟩, hwhite⟩

theorem Standing.closes (h : Standing source s) (ht : s.token.lexeme.isSolid = true) :
    source.Closes s.token.span.stop := by
  obtain ⟨front, body, hsource, hhere, hfront, hstop, hspelled⟩ := h.2
  obtain ⟨c, hc, hwhite⟩ := (hspelled.crisp ht).last
  obtain ⟨cs, rfl⟩ := List.getLast?_eq_some_iff.mp hc
  refine ⟨c, ⟨front ++ cs, s.rest, by rw [hsource, hhere]; simp, ?_⟩, hwhite⟩
  rw [hstop, Text.size_append, Text.size_append, ← hfront]
  simp only [Text.size_cons, Text.size_nil]
  omega

theorem Standing.lt (h : Standing source s) (ht : s.token.lexeme.isSolid = true) :
    s.token.span.start < s.token.span.stop := by
  obtain ⟨front, body, -, -, -, hstop, hspelled⟩ := h.2
  obtain ⟨c, hc, -⟩ := (hspelled.crisp ht).head
  obtain ⟨cs, rfl⟩ := List.head?_eq_some_iff.mp hc
  have := c.utf8Size_pos
  rw [hstop, Text.size_cons]
  omega

theorem Standing.start_le_stop (h : Standing source s) :
    s.token.span.start ≤ s.token.span.stop := by
  obtain ⟨-, body, -, -, -, hstop, -⟩ := h.2
  rw [hstop]
  exact Nat.le_add_right _ _

/-- A node that begins with the current token begins with a `;` only if the token is that. -/
theorem Placed.starts (h : Placed source s) (hopens : source.Opens s.token.span.start)
    (hsemi : s.token.is ";" = false) : source.Starts s.token.span.start := by
  obtain ⟨c, hc, hwhite⟩ := hopens
  refine ⟨c, hc, hwhite, ?_⟩
  rintro rfl
  obtain ⟨front, body, hsource, -, hfront, -⟩ := h.standing.2
  have hhead : s.here.head? = some ';' := Text.HasAt.head hc hsource hfront
  rw [h.2 hhead] at hsemi
  cases hsemi

/-- What begins with a `;` and is part of the program is that symbol. -/
theorem Standing.placed (h : Standing source s) (ht : s.token.lexeme.isSolid = true) :
    Placed source s := by
  refine ⟨h, fun hsemi => ?_⟩
  obtain ⟨front, body, -, hhere, -, -, hspelled⟩ := h.2
  obtain ⟨c, hc, -⟩ := (hspelled.crisp ht).head
  have hhead : body.head? = some ';' := by
    rw [hhere, List.head?_append, hc] at hsemi
    rw [hc]
    exact hsemi
  rw [Token.is]
  cases hl : s.token.lexeme with
  | symbol x =>
    rw [hl] at hspelled
    simp [hspelled.2.2 hhead]
  | word name escaped =>
    rw [hl] at hspelled
    exact absurd hhead hspelled.2.1
  | markupText | broken | finish =>
    rw [hl] at ht
    cases ht
  | _ =>
    rw [hl] at hspelled
    exact absurd hhead hspelled.2

theorem eq_of_spelled {x : String} {token : Token} {body : Text}
    (hx : token.is x = true) (h : token.lexeme.Spelled body) : body = x.toList := by
  rw [Token.is] at hx
  split at hx
  · rename_i y hy
    rw [hy] at h
    rw [h.1, beq_iff_eq.mp hx]
  · rename_i y escaped hy
    rw [hy] at h
    rw [Bool.and_eq_true, Bool.not_eq_true', beq_iff_eq] at hx
    rw [h.2.2 hx.2, hx.1]
  · cases hx

/-- The text of a symbol or plain word that is the current token. -/
theorem Standing.here_eq {x : String} (h : Standing source s) (hx : s.token.is x = true) :
    s.here = x.toList ++ s.rest := by
  obtain ⟨front, body, -, hhere, -, -, hspelled⟩ := h.2
  rw [hhere, eq_of_spelled hx hspelled]

theorem Standing.stop_eq {x : String} (h : Standing source s) (hx : s.token.is x = true) :
    s.token.span.stop = s.token.span.start + Text.size x.toList := by
  obtain ⟨front, body, -, -, -, hstop, hspelled⟩ := h.2
  rw [hstop, eq_of_spelled hx hspelled]

/-- A symbol of one character stands where the token begins, and it ends where the token does. -/
theorem Standing.hasAt {x : String} {c : Char} (h : Standing source s) (hx : s.token.is x = true)
    (hc : x.toList = [c]) :
    source.HasAt s.token.span.start c ∧ source.HasBefore s.token.span.stop c := by
  have hstop := h.stop_eq hx
  have hhere := h.here_eq hx
  obtain ⟨front, -, hsource, -, hfront, -⟩ := h.2
  rw [hc] at hhere hstop
  rw [hhere] at hsource
  refine ⟨⟨front, s.rest, hsource, hfront⟩, front, s.rest, hsource, ?_⟩
  rw [hstop, hfront]
  rfl

theorem Placed.head_ne_of_isWord (h : Placed source s) (hw : s.token.isWord = true) :
    s.here.head? ≠ some ';' := by
  intro hsemi
  obtain ⟨front, body, -, -, -, -, hspelled⟩ := h.standing.2
  have hbody := eq_of_spelled (h.2 hsemi) hspelled
  rw [Token.isWord] at hw
  split at hw
  · rename_i name escaped hl
    rw [hl] at hspelled
    exact hspelled.2.1 (by rw [hbody]; rfl)
  · cases hw

theorem Standing.past (h : Standing source s) {reader : Nat → Text → Reading}
    (hreader : ∀ offset text, (reader offset text).Of offset text) :
    Standing source (s.past reader) := by
  obtain ⟨front, body, hsource, hhere, hfront, hstop, -⟩ := h.2
  obtain ⟨gap, here, htext, hat, hstart, piece, hpiece, hend, hspelled⟩ :=
    hreader s.token.span.stop s.rest
  refine ⟨?_, front ++ body ++ gap, piece, ?_, ?_, ?_, ?_, hspelled⟩
  · show s.token.span.stop ≤ (reader s.token.span.stop s.rest).token.span.start
    omega
  · show source = front ++ body ++ gap ++ (reader s.token.span.stop s.rest).here
    rw [hat, hsource, hhere]
    simp [htext]
  · show (reader s.token.span.stop s.rest).here = _
    rw [hat]
    exact hpiece
  · show _ = (reader s.token.span.stop s.rest).token.span.start
    rw [Text.size_append, Text.size_append]
    omega
  · show (reader s.token.span.stop s.rest).token.span.stop =
      (reader s.token.span.stop s.rest).token.span.start + _
    omega

theorem Standing.le_next (h : Standing source s) : s.lastStop ≤ s.next.token.span.start := by
  have hnext : s.token.span.stop ≤ s.next.token.span.start := (h.past Lexer.read_of).le
  exact Nat.le_trans (Nat.le_trans h.le h.start_le_stop) hnext

theorem Placed.again (h : Placed source s) {reader : Token → Text → Reading}
    (hreader : (reader s.token s.here).At s.token.span.start s.here)
    (hhead : s.here.head? ≠ some ';') : Placed source (s.again reader) := by
  obtain ⟨hlast, front, body, hsource, -, hfront, -, -⟩ := h.standing
  obtain ⟨hat, hstart, piece, hpiece, hend, hspelled⟩ := hreader
  refine ⟨⟨?_, front, piece, ?_, ?_, ?_, ?_, hspelled⟩, ?_⟩
  · show s.lastStop ≤ (reader s.token s.here).token.span.start
    omega
  · show source = front ++ (reader s.token s.here).here
    rw [hat]
    exact hsource
  · show (reader s.token s.here).here = _
    rw [hat]
    exact hpiece
  · show _ = (reader s.token s.here).token.span.start
    omega
  · show (reader s.token s.here).token.span.stop = (reader s.token s.here).token.span.start + _
    omega
  · intro hsemi
    have hsemi : (reader s.token s.here).here.head? = some ';' := hsemi
    rw [hat] at hsemi
    exact absurd hsemi hhead

end Placed

section Laid

variable {source : Text} {lo : Nat} {m : Bool} {s t : State} {ns ms : List Node} {n : Node}

theorem Placed.begin (h : Placed source s) : Laid source s.token.span.start false s [] :=
  ⟨h, .inr ⟨rfl, rfl, rfl⟩⟩

theorem Laid.placed (h : Laid source lo m s ns) : Placed source s :=
  h.1

theorem Laid.trail (h : Laid source lo true s ns) : Trail source lo s ns := by
  rcases h.2 with ⟨h, -⟩ | ⟨h, -⟩
  · exact h
  · cases h

theorem Laid.closes (h : Laid source lo true s ns) : source.Closes s.lastStop := by
  rcases h.2 with ⟨-, h⟩ | ⟨h, -⟩
  · exact h
  · cases h

theorem Laid.weaken (h : Laid source lo true s ns) : Laid source lo m s ns :=
  ⟨h.placed, .inl ⟨h.trail, h.closes⟩⟩

theorem Laid.tidy (h : Laid source lo m s ns) : ∀ n ∈ ns, n.Tidy source := by
  rcases h.2 with ⟨h, -⟩ | ⟨-, -, rfl⟩
  · exact h.2.2.2
  · simp

/-- Past a token on a trail. -/
theorem Trail.past {reader : Nat → Text → Reading} (h : Trail source lo s ns)
    (hp : Standing source s) : Trail source lo (s.past reader) ns := by
  obtain ⟨hlt, hopens, hrow, htidy⟩ := h
  have hstop : s.lastStop ≤ s.token.span.stop := Nat.le_trans hp.le hp.start_le_stop
  exact ⟨Nat.lt_of_lt_of_le hlt hstop, hopens, hrow.mono (Nat.le_refl _) hstop, htidy⟩

theorem Laid.past {reader : Nat → Text → Reading} (h : Laid source lo m s ns)
    (ht : s.token.lexeme.isSolid = true)
    (hreader : ∀ offset text, (reader offset text).Of offset text)
    (hsemi : ∀ offset text, (reader offset text).Semicolon) :
    Laid source lo true (s.past reader) ns := by
  have hp := h.placed.standing
  refine ⟨⟨hp.past hreader, hsemi _ _⟩, .inl ⟨?_, hp.closes ht⟩⟩
  rcases h.2 with ⟨h, -⟩ | ⟨-, rfl, rfl⟩
  · exact h.past hp
  · exact ⟨hp.lt ht, hp.opens ht, .nil (Nat.le_of_lt (hp.lt ht)), by simp⟩

theorem Laid.next (h : Laid source lo m s ns) (ht : s.token.lexeme.isSolid = true) :
    Laid source lo true s.next ns :=
  h.past ht Lexer.read_of Lexer.read_semicolon

theorem Laid.eat {x : String} (h : Laid source lo m s ns) (hx : s.token.is x = true) :
    Laid source lo true s.next ns :=
  h.next (isSolid_of_is hx)

theorem Laid.eatAny {xs : List String} (h : Laid source lo m s ns) (hx : s.token.isAny xs = true) :
    Laid source lo true s.next ns :=
  h.next (isSolid_of_isAny hx)

theorem Laid.again {reader : Token → Text → Reading} (h : Laid source lo m s ns)
    (hreader : (reader s.token s.here).At s.token.span.start s.here)
    (hhead : s.here.head? ≠ some ';') : Laid source lo m (s.again reader) ns := by
  refine ⟨h.placed.again hreader hhead, ?_⟩
  rcases h.2 with h | ⟨hm, hlo, hns⟩
  · exact .inl h
  · exact .inr ⟨hm, hreader.2.1.trans hlo, hns⟩

theorem Laid.le_start (h : Laid source lo m s ns) : lo ≤ s.token.span.start := by
  rcases h.2 with ⟨⟨hlt, -⟩, -⟩ | ⟨-, rfl, -⟩
  · exact Nat.le_trans (Nat.le_of_lt hlt) h.placed.standing.le
  · exact Nat.le_refl _

/-- What was read so far ends before the current token. -/
theorem Laid.row (h : Laid source lo m s ns) : Node.Row lo s.token.span.start ns := by
  rcases h.2 with ⟨⟨-, -, hrow, -⟩, -⟩ | ⟨-, rfl, rfl⟩
  · exact hrow.mono (Nat.le_refl _) h.placed.standing.le
  · exact .nil (Nat.le_refl _)

/-- Nodes that were read since the current token began come behind the earlier ones. -/
theorem Trail.append (h : Trail source lo s ns) (hle : s.lastStop ≤ s.token.span.start)
    (h' : Trail source s.token.span.start t ms) : Trail source lo t (ns ++ ms) := by
  obtain ⟨hlo, hopens, hrow, htidy⟩ := h
  obtain ⟨hlt, -, hrow', htidy'⟩ := h'
  refine ⟨by omega, hopens, hrow.append (hrow'.mono hle (Nat.le_refl _)), ?_⟩
  intro n hn
  rcases List.mem_append.mp hn with hn | hn
  · exact htidy n hn
  · exact htidy' n hn

theorem Laid.append (h : Laid source lo m s ns) (h' : Laid source s.token.span.start true t ms) :
    Laid source lo true t (ns ++ ms) := by
  refine ⟨h'.placed, .inl ⟨?_, h'.closes⟩⟩
  rcases h.2 with ⟨htrail, -⟩ | ⟨-, rfl, rfl⟩
  · exact htrail.append h.placed.standing.le h'.trail
  · exact h'.trail

/-- Forgets some of the nodes that were read. -/
theorem Laid.sublist (h : Laid source lo m s ns) (hs : ms.Sublist ns) : Laid source lo m s ms := by
  refine ⟨h.placed, ?_⟩
  rcases h.2 with ⟨⟨hlt, hopens, hrow, htidy⟩, hcloses⟩ | ⟨hm, hlo, rfl⟩
  · exact .inl ⟨⟨hlt, hopens, hrow.sublist hs, fun n hn => htidy n (hs.subset hn)⟩, hcloses⟩
  · exact .inr ⟨hm, hlo, List.sublist_nil.mp hs⟩

/-- What was read since `lo` makes up a node, which may begin behind its first part. -/
theorem Trail.enclose {start : Nat} (h : Trail source lo s ns) (hcloses : source.Closes s.lastStop)
    (hle : lo ≤ start) (hlt : start < s.lastStop) (hopens : source.Opens start)
    (hspan : n.span = ⟨start, s.lastStop⟩) (hchildren : n.children = ns)
    (harranged : n.Arranged source) : Trail source lo s [n] := by
  obtain ⟨hlo, hfirst, hrow, htidy⟩ := h
  have hsharp : n.span.Sharp source := by
    rw [hspan]
    exact ⟨hlt, hopens, hcloses⟩
  have hn : n.Tidy source :=
    Node.tidy_iff.mpr ⟨⟨hsharp, harranged⟩, fun c hc => htidy c (hchildren ▸ hc)⟩
  have hwithin : n.Within lo s.lastStop := by
    refine Node.within_iff.mpr ⟨by rw [hspan]; exact ⟨hle, Nat.le_refl _⟩, ?_⟩
    rw [hchildren]
    exact hrow.within
  exact ⟨hlo, hfirst, .single hwithin hrow.le, by simpa using hn⟩

theorem Laid.enclose {start : Nat} (h : Laid source lo true s ns) (hle : lo ≤ start)
    (hlt : start < s.lastStop) (hopens : source.Opens start)
    (hspan : n.span = ⟨start, s.lastStop⟩) (hchildren : n.children = ns)
    (harranged : n.Arranged source) : Laid source lo true s [n] :=
  ⟨h.placed, .inl
    ⟨h.trail.enclose h.closes hle hlt hopens hspan hchildren harranged, h.closes⟩⟩

/-- What was read since `lo` makes up a node. -/
theorem Laid.build (h : Laid source lo true s ns) (hspan : n.span = ⟨lo, s.lastStop⟩)
    (hchildren : n.children = ns) (harranged : n.Arranged source) : Laid source lo true s [n] :=
  h.enclose (Nat.le_refl _) h.trail.1 h.trail.2.1 hspan hchildren harranged

/-- Whether the parts of such a node are arranged like those of most. -/
def isPlain : Node → Bool
  | .classDef .. | .exportDefault .. | .exportNamed .. | .importDecl .. | .method ..
  | .object .. => false
  | _ => true

theorem arranged_of_isPlain (hn : isPlain n = true)
    (hrow : Node.Row n.span.start n.span.stop n.children) : n.Arranged source := by
  cases n with
  | classDef | exportDefault | exportNamed | importDecl | method | object => cases hn
  | _ => exact hrow

theorem Trail.plain (h : Trail source lo s ns) (hcloses : source.Closes s.lastStop)
    (hspan : n.span = ⟨lo, s.lastStop⟩) (hchildren : n.children = ns) (hn : isPlain n = true) :
    Trail source lo s [n] := by
  refine h.enclose hcloses (Nat.le_refl _) h.1 h.2.1 hspan hchildren (arranged_of_isPlain hn ?_)
  rw [hspan, hchildren]
  exact h.2.2.1

theorem Laid.plain (h : Laid source lo true s ns) (hspan : n.span = ⟨lo, s.lastStop⟩)
    (hchildren : n.children = ns) (hn : isPlain n = true) : Laid source lo true s [n] :=
  ⟨h.placed, .inl ⟨h.trail.plain h.closes hspan hchildren hn, h.closes⟩⟩

end Laid

section Specs

variable {source : Text}

/-- A node was read that begins at `start`, and nothing else. -/
abbrev Done (source : Text) (start : Nat) (n : Node) (t : State) : Prop :=
  Laid source start true t [n]

/-- The parser reads a node from the current token on. -/
def Sound (source : Text) (p : Parser Node) : Prop :=
  ∀ s, Placed source s → Yields p (Done source s.token.span.start) s

/-- The parser reads the nodes that are in its answer, and if `moves` at least one token. -/
def Emits {α : Type} (source : Text) (moves : Bool) (p : Parser α) (f : α → List Node) :
    Prop :=
  ∀ s lo m ns, Laid source lo m s ns →
    Yields p (fun a t => Laid source lo (moves || m) t (ns ++ f a)) s

/-- The parser reads no nodes, and if `moves` at least one token. -/
def Passes {α : Type} (source : Text) (moves : Bool) (p : Parser α) : Prop :=
  ∀ s lo m ns, Laid source lo m s ns → Yields p (fun _ t => Laid source lo (moves || m) t ns) s

/-- The parser answers a question and leaves the state as it is. -/
def Steady (p : Parser Bool) : Prop :=
  ∀ s, Yields p (fun _ t => t = s) s

variable {α : Type} {moves m : Bool} {lo : Nat} {s : State} {ns : List Node}

theorem Sound.push {p : Parser Node} {Q : Node → State → Prop} (hp : Sound source p)
    (h : Laid source lo m s ns) (k : ∀ n t, Laid source lo true t (ns ++ [n]) → Q n t) :
    Yields p Q s :=
  (hp s h.placed).mono fun n t ht => k n t (h.append ht)

theorem Emits.run {p : Parser α} {f : α → List Node} {Q : α → State → Prop}
    (hp : Emits source moves p f) (h : Laid source lo m s ns)
    (k : ∀ a t, Laid source lo (moves || m) t (ns ++ f a) → Q a t) : Yields p Q s :=
  (hp s lo m ns h).mono k

theorem Passes.run {p : Parser α} {Q : α → State → Prop} (hp : Passes source moves p)
    (h : Laid source lo m s ns) (k : ∀ a t, Laid source lo (moves || m) t ns → Q a t) :
    Yields p Q s :=
  (hp s lo m ns h).mono k

theorem Sound.emits {p : Parser Node} (hp : Sound source p) :
    Emits source true p fun n => [n] :=
  fun _ _ _ _ h => hp.push h fun _ _ ht => ht

theorem Steady.run {p : Parser Bool} {Q : Bool → State → Prop} (hp : Steady p)
    (k : ∀ b, Q b s) : Yields p Q s :=
  (hp s).mono fun b t ht => by rw [ht]; exact k b

theorem steady_ahead (p : Parser Bool) : Steady (ahead p) :=
  fun _ => yields_ahead rfl fun _ => rfl

/-- Items one after another keep what each of them keeps. -/
theorem yields_many {more : Parser Bool} {item : Parser α} {Q : List α → State → Prop}
    (I : List α → State → Prop)
    (hround : ∀ items t, I items t →
      Yields more (fun b u =>
        (b = true → Yields item (fun a v => I (items ++ [a]) v) u) ∧ (¬ b = true → Q items u)) t)
    (h : I [] s) : Yields (many more item) Q s := by
  rw [many]
  refine yields_repeatFrom (fun items t => I items.reverse t) ?_ h
  intro items t ht
  rw [yields_bind]
  refine (hround items.reverse t ht).mono fun b u hb => ?_
  simp only [yields_steps]
  refine ⟨fun htrue => (hb.1 htrue).mono fun a v ha => ?_, hb.2⟩
  simp only [yields_steps]
  show I (a :: items).reverse v
  rwa [List.reverse_cons]

/-- A list of items, each read where some condition holds, emits what the items emit. -/
theorem emits_many {more : Parser Bool} {item : Parser α} {f : α → List Node}
    (C : State → Prop) (hmore : ∀ t, Yields more (fun b u => u = t ∧ (b = true → C t)) t)
    (hitem : ∀ s lo m ns, C s → Laid source lo m s ns →
      Yields item (fun a t => Laid source lo true t (ns ++ f a)) s) :
    Emits source false (many more item) fun items => items.flatMap f := by
  intro s lo m ns h
  refine yields_many (fun items t => Laid source lo m t (ns ++ items.flatMap f)) ?_
    (by simpa using h)
  intro items t ht
  refine (hmore t).mono fun b u hb => ?_
  obtain ⟨rfl, hC⟩ := hb
  refine ⟨fun htrue => ?_, fun _ => ht⟩
  refine (hitem u lo m _ (hC htrue) ht).mono fun a v ha => ?_
  have := ha.weaken (m := m)
  simpa using this

theorem emits_many_nodes {more : Parser Bool} {item : Parser Node} (hmore : Steady more)
    (hitem : Sound source item) : Emits source false (many more item) id := by
  intro s lo m ns h
  refine (emits_many (f := fun n => [n]) (fun _ => True) ?_ ?_).run h fun a t ht => ?_
  · exact fun t => (hmore t).mono fun _ _ hu => ⟨hu, fun _ => trivial⟩
  · exact fun s lo m ns _ h => hitem.push h fun _ _ ht => ht
  · rwa [List.flatMap_singleton'] at ht

/-- Items without nodes. -/
theorem passes_many {more : Parser Bool} {item : Parser α} (C : State → Prop)
    (hmore : ∀ t, Yields more (fun b u => u = t ∧ (b = true → C t)) t)
    (hitem : ∀ s lo m ns, C s → Laid source lo m s ns →
      Yields item (fun _ t => Laid source lo true t ns) s) :
    Passes source false (many more item) := by
  intro s lo m ns h
  refine (emits_many (f := fun _ => []) C hmore ?_).run h fun items t ht => ?_
  · intro s lo m ns hC h
    simpa using hitem s lo m ns hC h
  · have hnil : (items.flatMap fun _ => ([] : List Node)) = [] := by simp
    rwa [hnil, List.append_nil] at ht

/-- Tokens that are skipped. -/
theorem passes_many_advance {more : Parser Bool}
    (hmore : ∀ t, Yields more (fun b u => u = t ∧ (b = true → t.token.lexeme.isSolid = true)) t) :
    Passes source false (many more advance) := by
  refine passes_many _ hmore fun s lo m ns hsolid h => ?_
  simp only [yields_steps]
  exact h.next hsolid

theorem steady_untilClose (close : String) :
    Steady (do return !(← sees close) && !(← seesEnd)) := by
  intro s
  simp only [yields_steps]

theorem emits_itemsUntil {close : String} {item : Parser Node} (hitem : Sound source item) :
    Emits source false (itemsUntil close item) id :=
  emits_many_nodes (steady_untilClose close) hitem

/-- Items with commas between them. An item may leave the comma after it to be part of its node. -/
theorem yields_separated {close : String} {item : Parser α} {f : α → List Node}
    {Q : List α → State → Prop} (hclose : close ≠ ",")
    (hitem : ∀ t ns, Laid source lo m t ns →
      Yields item (fun a u => Laid source lo true u (ns ++ f a) ∨
        u.token.is "," = true ∧ Laid source lo true u.next (ns ++ f a)) t)
    (h : Laid source lo m s ns)
    (k : ∀ items t, Laid source lo m t (ns ++ items.flatMap f) → Q items t) :
    Yields (separated close item) Q s := by
  rw [separated]
  refine yields_repeatFrom
    (fun items t => Laid source lo m t (ns ++ items.reverse.flatMap f)) ?_ (by simpa using h)
  intro items t ht
  simp only [yields_steps]
  refine ⟨fun _ => k _ _ ht, fun _ => ?_⟩
  refine (hitem t _ ht).mono fun a u hu => ?_
  simp only [yields_steps]
  have hnodes (v : State) (hv : Laid source lo true v (ns ++ items.reverse.flatMap f ++ f a)) :
      Laid source lo m v (ns ++ (a :: items).reverse.flatMap f) := by
    simpa using hv.weaken
  rcases hu with hu | ⟨hcomma, hu⟩
  · exact ⟨fun _ hx => hnodes _ (hu.eat hx), fun _ => hnodes _ hu⟩
  · refine ⟨fun _ _ => hnodes _ hu, fun hseen => ?_⟩
    -- one token cannot be both the comma and the closing symbol
    rw [is_eq_false hcomma hclose.symm] at hseen
    simp at hseen

theorem emits_separated {close : String} {item : Parser Node} {Q : List Node → State → Prop}
    (hitem : Sound source item) (hclose : close ≠ ",") (h : Laid source lo m s ns)
    (k : ∀ items t, Laid source lo m t (ns ++ items) → Q items t) :
    Yields (separated close item) Q s := by
  refine yields_separated (f := fun n => [n]) hclose ?_ h fun items t ht => k items t ?_
  · exact fun t ns ht => hitem.push ht fun _ _ hu => .inl hu
  · rwa [List.flatMap_singleton'] at ht

/-- A token that may be there, and if it is not the state is as it was. -/
theorem eat_run {x : String} {Q : Bool → State → Prop} (h : Laid source lo m s ns)
    (k : ∀ b t, Laid source lo m t ns → (b = false → t = s) → Q b t) : Yields (eat x) Q s :=
  yields_eat.mpr ⟨fun hx => k true _ (h.eat hx).weaken nofun, fun _ => k false s h fun _ => rfl⟩

/-- A token that may be there. -/
theorem passes_eat (x : String) : Passes source false (eat x) :=
  fun _ _ _ _ h => eat_run h fun _ _ ht _ => ht

theorem passes_terminator : Passes source false terminator := by
  intro s lo m ns h
  simp only [terminator, yields_steps, yields_eat]
  exact ⟨fun hx => (h.eat hx).weaken, fun _ => ⟨fun _ => h, fun _ => trivial⟩⟩

end Specs

/-- The nodes `ns` were read since `lo`, and the parser has just left some markup; if `inside`, it
stands in the content of other markup. -/
def Left (source : Text) (inside : Bool) (lo : Nat) (s : State) (ns : List Node) : Prop :=
  Standing source s ∧ (inside = false → Placed source s) ∧ Trail source lo s ns ∧
    source.Closes s.lastStop

/-- A grammar that reads every nonterminal from the current token on. A markup element begins one
token earlier, and a statement that begins with `;` is empty. -/
structure Grammar.Sound (source : Text) (g : Grammar) : Prop where
  expression : Parser.Sound source (g .expression)
  assignment (arrowType : Bool) : Parser.Sound source (g (.assignment arrowType))
  binary (level : Nat) : Parser.Sound source (g (.binary level))
  unary : Parser.Sound source (g .unary)
  operand : Parser.Sound source (g .operand)
  callee : Parser.Sound source (g .callee)
  type : Parser.Sound source (g .type)
  pattern : Parser.Sound source (g .pattern)
  statement (single : Bool) : ∀ s, Placed source s →
    Yields (g (.statement single)) (fun n t => Done source s.token.span.start n t ∧
      (source.Starts s.token.span.start ∨ ∃ span, n = .other span [])) s
  markup (start : Nat) (inside : Bool) : ∀ s, Laid source start true s [] →
    Yields (g (.markup start inside)) (fun n t => Left source inside start t [n]) s

end Parser

end Codemod
