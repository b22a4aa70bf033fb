import Codemod.Proofs.Syntax.Amend
import Codemod.Proofs.Text.Edges

/-!
# Codemod.Proofs.Syntax.Layout

How the nodes of a tree lie in the text.

A tree is tidy when every node begins and ends with something that is not blank and its parts stand
one behind the other inside it. Decorators that stand before the word `export` belong to a class
behind it, so a class and an export may begin after their first part; their parts still keep clear
of the place where they begin.

* `Node.Tidy` is the layout of a tree, `Program.Laid` that of a module.
* `Tidy.nested_or_apart`: of two nodes of a tidy tree one is part of the other, or they are apart.
* `gather_pairwise`: what a walk finds that goes no further once it has found something stands in
  the order of the text.
-/

namespace Codemod

/-- Something that is not blank stands at both ends of the span. -/
structure Span.Sharp (source : Text) (span : Span) : Prop where
  lt : span.start < span.stop
  opens : source.Opens span.start
  closes : source.Closes span.stop

namespace Node

/-- The whole tree lies between two offsets. -/
def Within (lo hi : Nat) (n : Node) : Prop :=
  ∀ m ∈ n.postorder, lo ≤ m.span.start ∧ m.span.stop ≤ hi

/-- The whole tree of `a` ends before anything in that of `b` begins. -/
def Before (a b : Node) : Prop :=
  ∀ x ∈ a.postorder, ∀ y ∈ b.postorder, x.span.stop ≤ y.span.start

/-- Nothing in the tree reaches across an offset. -/
def Clear (offset : Nat) (n : Node) : Prop :=
  ∀ m ∈ n.postorder, m.span.stop ≤ offset ∨ offset ≤ m.span.start

/-- Nothing in the tree meets a span, unless the tree is a string that stands there. -/
def Avoids (span : Span) (n : Node) : Prop :=
  (∃ value, n = .string span value) ∨
    ∀ m ∈ n.postorder, m.span.stop ≤ span.start ∨ span.stop ≤ m.span.start

/-- Trees one behind the other between two offsets. -/
structure Row (lo hi : Nat) (ns : List Node) : Prop where
  le : lo ≤ hi
  within : ∀ n ∈ ns, n.Within lo hi
  ordered : ns.Pairwise Before

/-- The tree begins where its node does, with something other than a `;`. -/
def Starts (source : Text) (n : Node) : Prop :=
  source.Starts n.span.start ∧ ∀ m ∈ n.postorder, n.span.start ≤ m.span.start

/-- How the parts of a node stand in it. -/
def Arranged (source : Text) : Node → Prop
  | .classDef span _ head body members =>
    span.start ≤ body.start ∧ body.start + 1 < body.stop ∧ body.stop = span.stop ∧
      source.Closes (body.start + 1) ∧ source.Starts (body.stop - 1) ∧
      (∃ lo, Row lo body.start head) ∧ (∀ h ∈ head, h.Clear span.start) ∧
      Row (body.start + 1) (body.stop - 1) members ∧
      ∀ m ∈ members, m.Starts source
  | .exportDefault span value => (∃ lo, Row lo span.stop [value]) ∧ value.Clear span.start
  | .exportNamed span _ declaration parts =>
    (∃ lo, Row lo span.stop (declaration ++ parts)) ∧
      ∀ c ∈ declaration ++ parts, c.Clear span.start
  | .importDecl decl parts =>
    Row decl.span.start decl.span.stop parts ∧ ∀ p ∈ parts, ∃ span value, p = .string span value
  | .method span name key parts =>
    Row span.start span.stop parts ∧ (name.isSome →
      key.Sharp source ∧ span.start ≤ key.start ∧ key.stop ≤ span.stop ∧ ∀ p ∈ parts, p.Avoids key)
  | .object span properties =>
    source.HasAt span.start '\x7b' ∧ source.HasBefore span.stop '\x7d' ∧
      Row (span.start + 1) (span.stop - 1) properties
  | n => Row n.span.start n.span.stop n.children

/-- The layout of a tree. -/
def Tidy (source : Text) (n : Node) : Prop :=
  ∀ m ∈ n.postorder, m.span.Sharp source ∧ m.Arranged source

theorem mem_postorder_self (n : Node) : n ∈ n.postorder := by
  rw [postorder_eq]
  simp

theorem mem_postorder {m n : Node} :
    m ∈ n.postorder ↔ m = n ∨ ∃ c ∈ n.children, m ∈ c.postorder := by
  rw [postorder_eq, List.mem_append, List.mem_flatMap, List.mem_singleton, or_comm]

theorem mem_postorder_of_mem_children {c n : Node} (h : c ∈ n.children) : c ∈ n.postorder :=
  mem_postorder.mpr (.inr ⟨c, h, mem_postorder_self c⟩)

theorem forall_mem_postorder {n : Node} {P : Node → Prop} :
    (∀ m ∈ n.postorder, P m) ↔ P n ∧ ∀ c ∈ n.children, ∀ m ∈ c.postorder, P m := by
  constructor
  · intro h
    refine ⟨h n (mem_postorder_self n), fun c hc m hm => ?_⟩
    exact h m (mem_postorder.mpr (.inr ⟨c, hc, hm⟩))
  · rintro ⟨hn, h⟩ m hm
    rcases mem_postorder.mp hm with rfl | ⟨c, hc, hm⟩
    · exact hn
    · exact h c hc m hm

theorem postorder_trans {k m n : Node} (hk : k ∈ m.postorder) (hm : m ∈ n.postorder) :
    k ∈ n.postorder := by
  induction n using inductionOn with
  | step n ih =>
    rcases mem_postorder.mp hm with rfl | ⟨c, hc, hm⟩
    · exact hk
    · exact mem_postorder.mpr (.inr ⟨c, hc, ih c hc hm⟩)

section Row

variable {lo mid hi lo' hi' : Nat} {n : Node} {ns ms : List Node}

theorem Within.mono (h : n.Within lo hi) (hlo : lo' ≤ lo) (hhi : hi ≤ hi') : n.Within lo' hi' :=
  fun m hm => ⟨Nat.le_trans hlo (h m hm).1, Nat.le_trans (h m hm).2 hhi⟩

theorem within_iff : n.Within lo hi ↔
    (lo ≤ n.span.start ∧ n.span.stop ≤ hi) ∧ ∀ c ∈ n.children, c.Within lo hi :=
  forall_mem_postorder

theorem Within.clear (h : n.Within lo hi) (hlo : mid ≤ lo) : n.Clear mid :=
  fun m hm => .inr (Nat.le_trans hlo (h m hm).1)

theorem Row.mono (h : Row lo hi ns) (hlo : lo' ≤ lo) (hhi : hi ≤ hi') : Row lo' hi' ns :=
  ⟨Nat.le_trans hlo (Nat.le_trans h.le hhi), fun n hn => (h.within n hn).mono hlo hhi, h.ordered⟩

theorem Row.nil (h : lo ≤ hi) : Row lo hi [] :=
  ⟨h, by simp, .nil⟩

theorem Row.single (h : n.Within lo hi) (hle : lo ≤ hi) : Row lo hi [n] :=
  ⟨hle, by simpa using h, List.pairwise_singleton _ _⟩

theorem Row.append (h : Row lo mid ns) (h' : Row mid hi ms) : Row lo hi (ns ++ ms) := by
  refine ⟨Nat.le_trans h.le h'.le, ?_, List.pairwise_append.mpr ⟨h.ordered, h'.ordered, ?_⟩⟩
  · intro n hn
    rcases List.mem_append.mp hn with hn | hn
    · exact (h.within n hn).mono (Nat.le_refl _) h'.le
    · exact (h'.within n hn).mono h.le (Nat.le_refl _)
  · intro a ha b hb x hx y hy
    exact Nat.le_trans (h.within a ha x hx).2 (h'.within b hb y hy).1

theorem Row.sublist (h : Row lo hi ns) (hs : ms.Sublist ns) : Row lo hi ms :=
  ⟨h.le, fun n hn => h.within n (hs.subset hn), h.ordered.sublist hs⟩

end Row

section Tidy

variable {source : Text} {n m : Node}

theorem tidy_iff : n.Tidy source ↔
    (n.span.Sharp source ∧ n.Arranged source) ∧ ∀ c ∈ n.children, c.Tidy source :=
  forall_mem_postorder

theorem Tidy.sharp (h : n.Tidy source) : n.span.Sharp source :=
  (h n (mem_postorder_self n)).1

theorem Tidy.arranged (h : n.Tidy source) : n.Arranged source :=
  (h n (mem_postorder_self n)).2

theorem Tidy.of_mem (h : n.Tidy source) (hm : m ∈ n.postorder) : m.Tidy source :=
  fun k hk => h k (postorder_trans hk hm)

theorem row_of_object {span : Span} {properties : List Node}
    (h : (Node.object span properties).Arranged source) : Row span.start span.stop properties :=
  h.2.2.mono (Nat.le_succ _) (Nat.sub_le _ _)

/-- In every arrangement the parts stand in a row that ends with the node. -/
theorem Arranged.row (h : n.Arranged source) : ∃ lo, Row lo n.span.stop n.children := by
  cases n with
  | classDef span name head body members =>
    obtain ⟨-, hlt, hstop, -, -, ⟨lo, hhead⟩, -, hmembers, -⟩ := h
    have hrest : Row body.start span.stop members := hmembers.mono (by omega) (by omega)
    exact ⟨lo, hhead.append hrest⟩
  | exportDefault span value => exact h.1
  | exportNamed span names declaration parts => exact h.1
  | importDecl decl parts => exact ⟨_, h.1⟩
  | method span name key parts => exact ⟨_, h.1⟩
  | object span properties => exact ⟨_, row_of_object h⟩
  | _ => exact ⟨_, h⟩

theorem Tidy.stop_le (h : n.Tidy source) (hm : m ∈ n.postorder) : m.span.stop ≤ n.span.stop := by
  rcases mem_postorder.mp hm with rfl | ⟨c, hc, hm⟩
  · exact Nat.le_refl _
  · obtain ⟨lo, hrow⟩ := h.arranged.row
    exact (hrow.within c hc m hm).2

/-- Trees in a row: two nodes out of them are apart, or they are of one tree. -/
theorem apart_of_ordered {ns : List Node} (hns : ns.Pairwise Before) {a b x y : Node}
    (ha : a ∈ ns) (hb : b ∈ ns) (hx : x ∈ a.postorder) (hy : y ∈ b.postorder) :
    a = b ∨ x.span.stop ≤ y.span.start ∨ y.span.stop ≤ x.span.start := by
  obtain ⟨i, hi, rfl⟩ := List.mem_iff_getElem.mp ha
  obtain ⟨j, hj, rfl⟩ := List.mem_iff_getElem.mp hb
  rcases Nat.lt_trichotomy i j with hij | rfl | hij
  · exact .inr (.inl (List.pairwise_iff_getElem.mp hns i j hi hj hij x hx y hy))
  · exact .inl rfl
  · exact .inr (.inr (List.pairwise_iff_getElem.mp hns j i hj hi hij y hy x hx))

/-- Of two nodes of a tidy tree one is part of the other, or they are apart. -/
theorem Tidy.nested_or_apart {x y : Node} (h : n.Tidy source) (hx : x ∈ n.postorder)
    (hy : y ∈ n.postorder) :
    x ∈ y.postorder ∨ y ∈ x.postorder ∨ x.span.stop ≤ y.span.start ∨
      y.span.stop ≤ x.span.start := by
  induction n using inductionOn with
  | step n ih =>
    rcases mem_postorder.mp hx with rfl | ⟨a, ha, hxa⟩
    · exact .inr (.inl hy)
    rcases mem_postorder.mp hy with rfl | ⟨b, hb, hyb⟩
    · exact .inl hx
    obtain ⟨lo, hrow⟩ := h.arranged.row
    rcases apart_of_ordered hrow.ordered ha hb hxa hyb with rfl | hapart
    · exact ih a ha ((tidy_iff.mp h).2 a ha) hxa hyb
    · exact .inr (.inr hapart)

end Tidy

section Gather

variable {σ α : Type} {visit : σ → Node → List α × Option σ}

/-- What a visitor finds belongs to some node of the tree. -/
theorem exists_of_mem_gather {s : σ} {n : Node} {x : α} (h : x ∈ gather visit s n) :
    ∃ t, ∃ m ∈ n.postorder, x ∈ (visit t m).1 := by
  induction n using inductionOn generalizing s with
  | step n ih =>
    rcases mem_gather h with h | ⟨t, -, c, hc, h⟩
    · exact ⟨s, n, mem_postorder_self n, h⟩
    · obtain ⟨u, m, hm, hx⟩ := ih c hc h
      exact ⟨u, m, mem_postorder.mpr (.inr ⟨c, hc, hm⟩), hx⟩

variable (place : α → Option Span)

/-- `x` stands before `y`, as far as they have a place. -/
def Precedes (x y : α) : Prop :=
  ∀ a ∈ place x, ∀ b ∈ place y, a.stop ≤ b.start

/-- Nodes in a row: what is found in them stands in the order of the text, if that is so in each. -/
theorem flatMap_gather_pairwise {s : σ} {ns : List Node}
    (hplace : ∀ s m x, x ∈ (visit s m).1 → ∀ a ∈ place x, a = m.span)
    (hns : ns.Pairwise Before) (h : ∀ n ∈ ns, (gather visit s n).Pairwise (Precedes place)) :
    (ns.flatMap (gather visit s)).Pairwise (Precedes place) := by
  rw [List.pairwise_flatMap]
  refine ⟨h, hns.imp fun hab x hx y hy a ha b hb => ?_⟩
  obtain ⟨t, k, hk, hxk⟩ := exists_of_mem_gather hx
  obtain ⟨u, l, hl, hyl⟩ := exists_of_mem_gather hy
  rw [hplace t k x hxk a ha, hplace u l y hyl b hb]
  exact hab k hk l hl

theorem gather_pairwise {source : Text} {n : Node} (s : σ)
    (hplace : ∀ s m x, x ∈ (visit s m).1 → ∀ a ∈ place x, a = m.span)
    (hstop : ∀ s m, (visit s m).1 = [] ∨ (visit s m).2 = none ∧ (visit s m).1.length ≤ 1)
    (h : n.Tidy source) : (gather visit s n).Pairwise (Precedes place) := by
  induction n using inductionOn generalizing s with
  | step n ih =>
    rw [gather_eq]
    have hn := hstop s n
    rcases hvisit : visit s n with ⟨found, _ | t⟩
    · rw [hvisit] at hn
      rcases hn with rfl | ⟨-, hlen⟩
      · exact .nil
      · match found, hlen with
        | [], _ => exact .nil
        | [x], _ => exact List.pairwise_singleton _ _
    · rw [hvisit] at hn
      rcases hn with rfl | ⟨hnone, -⟩
      · show (n.children.flatMap (gather visit t)).Pairwise _
        obtain ⟨lo, hrow⟩ := h.arranged.row
        exact flatMap_gather_pairwise place hplace hrow.ordered
          fun c hc => ih c hc t ((tidy_iff.mp h).2 c hc)
      · cases hnone

end Gather

/-- `b` begins with something other than a `;` behind `a`, or is an empty statement. -/
def Follows (source : Text) (a b : Node) : Prop :=
  (∃ lo, a.span.stop ≤ lo ∧ source.Starts lo ∧ ∀ y ∈ b.postorder, lo ≤ y.span.start) ∨
    ∃ span, b = .other span []

end Node

/-- The layout of a module. -/
structure Program.Laid (source : Text) (p : Program) : Prop where
  tidy : ∀ n ∈ p.nodes, n.Tidy source
  row : Node.Row 0 source.size p.nodes
  follows : p.nodes.Pairwise (Node.Follows source)

end Codemod
