import Codemod.Proofs.Syntax.Layout
import Codemod.Proofs.Text.Apart

/-!
# Codemod.Proofs.Syntax.Neighbors

An edit at one node leaves the nodes beside it alone.

An edit of a statement takes a `;` along that follows it, or the blank rest of its lines, so it
reaches out of the node it is made for. In a module that is laid out as the parser lays it out, it
still meets nothing else:

* `Laid.apart_widened`: neither a node of another statement,
* `Laid.widened_apart_widened`: nor an edit of another statement. `Laid.apart_of_ne` puts both
  together.
* `Tidy.inside_braces`: an edit of a class member stays within the braces of the class, and
  `Tidy.apart_of_members` off the other members.
-/

namespace Codemod

theorem Span.Sharp.fits {source : Text} {e : Edit} (h : e.span.Sharp source) : e.Fits source :=
  Edit.fits_of_boundary h.lt.le h.opens.boundary h.closes.boundary

namespace Text

variable {s : Text} {span out : Span} {p q : Nat}

/-- What an edit of the node at `span` takes: also a `;` behind it, or all of its lines. -/
def Widens (s : Text) (span out : Span) : Prop :=
  out = s.statementSpan span ∨ out = s.removalSpan span

theorem boundary_removalSpan (hspan : span.Sharp s) :
    s.Boundary (s.removalSpan span).start ∧ s.Boundary (s.removalSpan span).stop := by
  have hstop := closes_statementSpan hspan.closes
  rcases removalSpan_cases hspan.opens.boundary with
    heq | ⟨front, line, rest, back, hs, hrest, hfront, -, hsize, -⟩
  · rw [heq, statementSpan_start]
    exact ⟨hspan.opens.boundary, hstop.boundary⟩
  · refine ⟨⟨front, _, hs, hfront⟩, s.before (s.statementSpan span).stop ++ rest, back, ?_, ?_⟩
    · rw [List.append_assoc, ← hrest, before_append_after]
    · rw [size_append, size_before hstop.boundary, hsize]

namespace Widens

theorem start_le (h : s.Widens span out) (hspan : span.Sharp s) : out.start ≤ span.start := by
  rcases h with rfl | rfl
  · exact (statementSpan_start s span).le
  · exact removalSpan_start_le hspan.opens.boundary

theorem statement_le (h : s.Widens span out) (hspan : span.Sharp s) :
    (s.statementSpan span).stop ≤ out.stop := by
  rcases h with rfl | rfl
  · exact Nat.le_refl _
  · exact stop_le_removalSpan hspan.opens.boundary

theorem inside (h : s.Widens span out) (hspan : span.Sharp s) : span.Inside out :=
  ⟨h.start_le hspan, Nat.le_trans (stop_le_statementSpan s span) (h.statement_le hspan)⟩

theorem fits {e : Edit} (h : s.Widens span e.span) (hspan : span.Sharp s) : e.Fits s := by
  obtain ⟨hstart, hstop⟩ := h.inside hspan
  have hle : e.span.start ≤ e.span.stop := Nat.le_trans hstart (Nat.le_trans hspan.lt.le hstop)
  rcases h with heq | heq
  · refine Edit.fits_of_boundary hle ?_ ?_
    · rw [heq, statementSpan_start]
      exact hspan.opens.boundary
    · rw [heq]
      exact (closes_statementSpan hspan.closes).boundary
  · obtain ⟨hfirst, hlast⟩ := boundary_removalSpan hspan
    exact Edit.fits_of_boundary hle (heq ▸ hfirst) (heq ▸ hlast)

/-- To the left a widened span stops at what is not blank. -/
theorem le_start (h : s.Widens span out) (hspan : span.Sharp s) (hp : s.Closes p)
    (hle : p ≤ span.start) : p ≤ out.start := by
  rcases h with rfl | rfl
  · rwa [statementSpan_start]
  · exact le_removalSpan hspan.opens.boundary hp hle

/-- To the right it stops at what is neither blank nor a `;`. -/
theorem stop_le (h : s.Widens span out) (hspan : span.Sharp s) (hq : s.Starts q)
    (hle : span.stop ≤ q) : out.stop ≤ q := by
  have hstatement := statementSpan_le hspan.closes.boundary hq hle
  rcases h with rfl | rfl
  · exact hstatement
  · exact removalSpan_le hspan.opens.boundary (closes_statementSpan hspan.closes).boundary hq.opens
      hstatement

theorem stop_le_start {a b outA outB : Span} (ha : s.Widens a outA) (hb : s.Widens b outB)
    (hsa : a.Sharp s) (hsb : b.Sharp s) (hle : (s.statementSpan a).stop ≤ b.start) :
    outA.stop ≤ outB.start := by
  have hcloses := closes_statementSpan hsa.closes
  rcases ha with rfl | rfl
  · exact hb.le_start hsb hcloses hle
  · rcases hb with rfl | rfl
    · rw [statementSpan_start]
      exact removalSpan_le hsa.opens.boundary hcloses.boundary hsb.opens hle
    · exact removalSpan_le_removalSpan hsa.opens.boundary hcloses hsb.opens hle

end Widens

end Text

namespace Node

/-- The node is not a statement that consists of a `;` alone. -/
def Solid (n : Node) : Prop :=
  ∀ span, n ≠ .other span []

theorem Follows.starts {source : Text} {a b y : Node} (h : a.Follows source b)
    (hy : y ∈ b.postorder) (hsolid : y.Solid) :
    ∃ lo, a.span.stop ≤ lo ∧ source.Starts lo ∧ lo ≤ y.span.start := by
  rcases h with ⟨lo, hle, hstarts, hall⟩ | ⟨span, rfl⟩
  · exact ⟨lo, hle, hstarts, hall y hy⟩
  · rcases mem_postorder.mp hy with rfl | ⟨c, hc, -⟩
    · exact absurd rfl (hsolid span)
    · cases hc

/-- A span that belongs to a statement: the statement itself, widened, or a part of one of its
nodes. -/
inductive Owns (source : Text) (n : Node) (span : Span) : Prop
  | whole (hsolid : n.Solid) (hwidens : source.Widens n.span span)
  | inner (y : Node) (hy : y ∈ n.postorder) (hsolid : y.Solid) (hinside : span.Inside y.span)

/-- Nothing in a tidy tree reaches across the offset where the tree begins. -/
theorem Tidy.clear {source : Text} {n : Node} (h : n.Tidy source) : n.Clear n.span.start := by
  intro m hm
  rcases mem_postorder.mp hm with rfl | ⟨c, hc, hmc⟩
  · exact .inr (Nat.le_refl _)
  have harranged := h.arranged
  have hrow (hrow : Row n.span.start n.span.stop n.children) :
      m.span.stop ≤ n.span.start ∨ n.span.start ≤ m.span.start :=
    .inr (hrow.within c hc m hmc).1
  cases n with
  | classDef span name head body members =>
    obtain ⟨hle, -, -, -, -, -, hhead, hmembers, -⟩ := harranged
    rcases List.mem_append.mp hc with hc | hc
    · exact hhead c hc m hmc
    · have := (hmembers.within c hc m hmc).1
      exact .inr (show span.start ≤ m.span.start by omega)
  | exportDefault span value =>
    obtain rfl := List.mem_singleton.mp hc
    exact harranged.2 m hmc
  | exportNamed span names declaration parts => exact harranged.2 c hc m hmc
  | importDecl decl parts => exact hrow harranged.1
  | method span name key parts => exact hrow harranged.1
  | object span properties => exact hrow (Node.row_of_object harranged)
  | _ => exact hrow harranged

/-- What belongs to a node whose parts all stand inside it stands inside it, too. -/
theorem inside_of_row {n x : Node} (hrow : Row n.span.start n.span.stop n.children)
    (hx : x ∈ n.postorder) : x.span.Inside n.span := by
  rcases mem_postorder.mp hx with rfl | ⟨c, hc, hx⟩
  · exact .refl _
  · exact hrow.within c hc x hx

section Members

variable {source : Text} {span body : Span} {name : Option String} {head members : List Node}
  {out : Span} {f m y : Node}

/-- An edit of a class member stays within the braces of the class. -/
theorem Tidy.inside_braces (h : (classDef span name head body members).Tidy source)
    (hf : f ∈ members) (hout : source.Widens f.span out) :
    out.Inside ⟨body.start + 1, body.stop - 1⟩ := by
  have hsharp := ((tidy_iff.mp h).2 f (List.mem_append_right _ hf)).sharp
  obtain ⟨-, -, -, hcloses, hstarts, -, -, hrow, -⟩ := h.arranged
  obtain ⟨hlo, hhi⟩ := hrow.within f hf f (mem_postorder_self f)
  exact ⟨hout.le_start hsharp hcloses hlo, hout.stop_le hsharp hstarts hhi⟩

theorem Tidy.inside_of_member (h : (classDef span name head body members).Tidy source)
    (hf : f ∈ members) (hout : source.Widens f.span out) : out.Inside span := by
  obtain ⟨hle, -, hstop, -⟩ := h.arranged
  refine (h.inside_braces hf hout).trans ⟨?_, ?_⟩
  · exact Nat.le_succ_of_le hle
  · exact hstop ▸ Nat.sub_le _ _

/-- An edit of a class member keeps off the nodes of the other members. -/
theorem Tidy.apart_of_members (h : (classDef span name head body members).Tidy source)
    (hf : f ∈ members) (hm : m ∈ members) (hy : y ∈ m.postorder)
    (hout : source.Widens f.span out) : f = m ∨ out.Apart y.span := by
  have htidy (c : Node) (hc : c ∈ members) : c.Tidy source :=
    (tidy_iff.mp h).2 c (List.mem_append_right _ hc)
  have hself (c : Node) := mem_postorder_self c
  obtain ⟨-, -, -, -, -, -, -, hrow, hstarts⟩ := h.arranged
  obtain ⟨i, hi, rfl⟩ := List.mem_iff_getElem.mp hf
  obtain ⟨j, hj, rfl⟩ := List.mem_iff_getElem.mp hm
  have hbefore := List.pairwise_iff_getElem.mp hrow.ordered
  rcases Nat.lt_trichotomy i j with hij | rfl | hij
  · have hle := hout.stop_le (htidy _ hf).sharp (hstarts _ hm).1
      (hbefore i j hi hj hij _ (hself _) _ (hself _))
    exact .inr (.inl (Nat.le_trans hle ((hstarts _ hm).2 y hy)))
  · exact .inl rfl
  · have hle := hbefore j i hj hi hij y hy _ (hself _)
    exact .inr (.inr (hout.le_start (htidy _ hf).sharp ((htidy _ hm).of_mem hy).sharp.closes hle))

end Members

end Node

namespace Program

/-- A node of the module. -/
def Has (p : Program) (y : Node) : Prop :=
  ∃ n ∈ p.nodes, y ∈ n.postorder

/-- What a visitor finds in a module belongs to some node of it. -/
theorem exists_of_mem_gather {σ α : Type} {visit : σ → Node → List α × Option σ} {s : σ}
    {p : Program} {x : α} (h : x ∈ p.gather visit s) : ∃ t m, p.Has m ∧ x ∈ (visit t m).1 := by
  obtain ⟨n, hn, hx⟩ := List.mem_flatMap.mp h
  obtain ⟨t, m, hm, hx⟩ := Node.exists_of_mem_gather hx
  exact ⟨t, m, ⟨n, hn, hm⟩, hx⟩

namespace Laid

variable {source : Text} {p : Program} {a b x y : Node} {outA outB : Span}

/-- What a walk finds that goes no further once it has found something stands in the order of the
text. -/
theorem gather_pairwise {σ α : Type} {visit : σ → Node → List α × Option σ}
    (h : p.Laid source) (place : α → Option Span) (s : σ)
    (hplace : ∀ s m x, x ∈ (visit s m).1 → ∀ a ∈ place x, a = m.span)
    (hstop : ∀ s m, (visit s m).1 = [] ∨ (visit s m).2 = none ∧ (visit s m).1.length ≤ 1) :
    (p.gather visit s).Pairwise (Node.Precedes place) :=
  Node.flatMap_gather_pairwise place hplace h.row.ordered
    fun n hn => Node.gather_pairwise place s hplace hstop (h.tidy n hn)

theorem tidy_of_has (h : p.Laid source) (hy : p.Has y) : y.Tidy source := by
  obtain ⟨n, hn, hy⟩ := hy
  exact (h.tidy n hn).of_mem hy

theorem sharp_of_has (h : p.Laid source) (hy : p.Has y) : y.span.Sharp source :=
  (h.tidy_of_has hy).sharp

/-- Of two nodes one is part of the other, or they are apart. -/
theorem nested_or_apart (h : p.Laid source) (hx : p.Has x) (hy : p.Has y) :
    x ∈ y.postorder ∨ y ∈ x.postorder ∨ x.span.Apart y.span := by
  obtain ⟨a, ha, hxa⟩ := hx
  obtain ⟨b, hb, hyb⟩ := hy
  rcases Node.apart_of_ordered h.row.ordered ha hb hxa hyb with rfl | hapart
  · exact (h.tidy a ha).nested_or_apart hxa hyb
  · exact .inr (.inr hapart)

/-- The statements of a module stand one behind the other, with something other than a `;` where
the later one begins. -/
theorem before_or_after (h : p.Laid source) (ha : a ∈ p.nodes) (hb : b ∈ p.nodes) :
    a = b ∨ (a.Before b ∧ a.Follows source b) ∨ (b.Before a ∧ b.Follows source a) := by
  have hpairs := List.pairwise_and_iff.mpr ⟨h.row.ordered, h.follows⟩
  obtain ⟨i, hi, rfl⟩ := List.mem_iff_getElem.mp ha
  obtain ⟨j, hj, rfl⟩ := List.mem_iff_getElem.mp hb
  rcases Nat.lt_trichotomy i j with hij | rfl | hij
  · exact .inr (.inl (List.pairwise_iff_getElem.mp hpairs i j hi hj hij))
  · exact .inl rfl
  · exact .inr (.inr (List.pairwise_iff_getElem.mp hpairs j i hj hi hij))

/-- An edit of a statement meets no node of another. -/
theorem apart_widened (h : p.Laid source) (ha : a ∈ p.nodes) (hb : b ∈ p.nodes)
    (hout : source.Widens a.span outA) (hy : y ∈ b.postorder) (hsolid : y.Solid) :
    a = b ∨ outA.Apart y.span := by
  have hself := Node.mem_postorder_self a
  have hsharp := (h.tidy a ha).sharp
  rcases h.before_or_after ha hb with rfl | ⟨-, hfollows⟩ | ⟨hbefore, -⟩
  · exact .inl rfl
  · obtain ⟨lo, hle, hstarts, hlo⟩ := hfollows.starts hy hsolid
    exact .inr (.inl (Nat.le_trans (hout.stop_le hsharp hstarts hle) hlo))
  · have hcloses := ((h.tidy b hb).of_mem hy).sharp.closes
    exact .inr (.inr (hout.le_start hsharp hcloses (hbefore y hy a hself)))

/-- Edits of two statements do not meet. -/
theorem widened_apart_widened (h : p.Laid source) (ha : a ∈ p.nodes) (hb : b ∈ p.nodes)
    (hsa : a.Solid) (hsb : b.Solid) (hA : source.Widens a.span outA)
    (hB : source.Widens b.span outB) : a = b ∨ outA.Apart outB := by
  have hstep {a b : Node} {outA outB : Span} (ha : a ∈ p.nodes) (hb : b ∈ p.nodes)
      (hsb : b.Solid) (hfollows : a.Follows source b) (hA : source.Widens a.span outA)
      (hB : source.Widens b.span outB) : outA.stop ≤ outB.start := by
    obtain ⟨lo, hle, hstarts, hlo⟩ := hfollows.starts (Node.mem_postorder_self b) hsb
    have hsharp := (h.tidy a ha).sharp
    have hstatement := Text.statementSpan_le hsharp.closes.boundary hstarts hle
    exact hA.stop_le_start hB hsharp (h.tidy b hb).sharp (Nat.le_trans hstatement hlo)
  rcases h.before_or_after ha hb with rfl | ⟨-, hfollows⟩ | ⟨-, hfollows⟩
  · exact .inl rfl
  · exact .inr (.inl (hstep ha hb hsb hfollows hA hB))
  · exact .inr (.inr (hstep hb ha hsa hfollows hB hA))

/-- Edits that belong to two statements do not meet. -/
theorem apart_of_ne (h : p.Laid source) (ha : a ∈ p.nodes) (hb : b ∈ p.nodes) (hne : a ≠ b)
    (hA : a.Owns source outA) (hB : b.Owns source outB) : outA.Apart outB := by
  cases hA with
  | whole hsa hA =>
    cases hB with
    | whole hsb hB => exact (h.widened_apart_widened ha hb hsa hsb hA hB).resolve_left hne
    | inner y hy hsolid hB =>
      exact ((h.apart_widened ha hb hA hy hsolid).resolve_left hne).mono (.refl _) hB
  | inner x hx hsx hA =>
    cases hB with
    | whole hsb hB =>
      have hapart := (h.apart_widened hb ha hB hx hsx).resolve_left hne.symm
      exact hapart.symm.mono hA (.refl _)
    | inner y hy _ hB =>
      have hapart : x.span.Apart y.span :=
        (Node.apart_of_ordered h.row.ordered ha hb hx hy).resolve_left hne
      exact hapart.mono hA hB

/-- Where a statement begins is no place inside a node. -/
theorem apart_start (h : p.Laid source) (ha : a ∈ p.nodes) (hy : p.Has y) :
    Span.Apart ⟨a.span.start, a.span.start⟩ y.span := by
  obtain ⟨b, hb, hyb⟩ := hy
  have hself := Node.mem_postorder_self a
  rcases Node.apart_of_ordered h.row.ordered ha hb hself hyb with rfl | hle | hle
  · exact ((h.tidy a ha).clear y hyb).symm
  · exact .inl (Nat.le_trans (h.tidy a ha).sharp.lt.le hle)
  · exact .inr hle

end Laid

end Program

end Codemod
