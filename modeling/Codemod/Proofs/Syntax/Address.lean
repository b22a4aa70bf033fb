import Codemod.Syntax.Node
import Mathlib.Data.List.Nodup
import Mathlib.Data.List.Perm.Basic

/-!
# Codemod.Proofs.Syntax.Address

Where a node stands in a tree.

Two nodes of a tree may be equal, spans included, so a place in a tree is named by an address: which
node at the top, which part of it, which part of that. `Program.at?` looks an address up, and
`Program.addresses` lists all addresses in preorder, each once (`nodup_addresses`,
`mem_addresses`). What a walk finds can then be said of addresses:

* `gather_eq_filterMap`: a walk that finds at most one thing at a node finds `foundAt?` at every
  address.
* `postorder_perm`: a tree listed from its leaves up has the nodes at its addresses.
* `Lists`: a list of the addresses that have a property.
-/

namespace Codemod

/-- Which node, which part of it, which part of that, and so on; all counted from 0. -/
abbrev Address := List Nat

namespace Node

/-- The part of a node at an address; the node itself is at the empty one. -/
def at? (n : Node) : Address → Option Node
  | [] => some n
  | i :: a => (n.children[i]?).bind fun c => c.at? a

/-- The addresses of the parts of a row of nodes, given those within each. -/
def numbered (inside : Node → List Address) (ns : List Node) : List Address :=
  ns.zipIdx.flatMap fun (c, i) => (inside c).map (i :: ·)

/-- All addresses within a node, in preorder. -/
def addresses (n : Node) : List Address :=
  [] :: n.children.attach.zipIdx.flatMap fun (c, i) => (addresses c.1).map (i :: ·)
termination_by sizeOf n
decreasing_by exact sizeOf_lt_of_mem_children c.2

theorem addresses_eq (n : Node) : n.addresses = [] :: numbered addresses n.children := by
  have hattach : n.children.zipIdx = n.children.attach.zipIdx.map (Prod.map (·.1) id) := by
    rw [← List.zipIdx_map, List.attach_map_subtype_val]
  rw [addresses, numbered, hattach, List.flatMap_map]
  rfl

theorem mem_numbered {inside : Node → List Address} {ns : List Node} {a : Address} :
    a ∈ numbered inside ns ↔ ∃ i c b, ns[i]? = some c ∧ b ∈ inside c ∧ a = i :: b := by
  simp only [numbered, List.mem_flatMap, List.mem_map, Prod.exists, List.mk_mem_zipIdx_iff_getElem?]
  constructor
  · rintro ⟨c, i, hc, b, hb, rfl⟩
    exact ⟨i, c, b, hc, hb, rfl⟩
  · rintro ⟨i, c, b, hc, hb, rfl⟩
    exact ⟨c, i, hc, b, hb, rfl⟩

theorem nodup_numbered {inside : Node → List Address} {ns : List Node}
    (h : ∀ c ∈ ns, (inside c).Nodup) : (numbered inside ns).Nodup := by
  rw [numbered, List.nodup_flatMap]
  constructor
  · rintro ⟨c, i⟩ hc
    exact (h c (List.fst_mem_of_mem_zipIdx hc)).map fun _ _ hab => (List.cons.inj hab).2
  · -- parts with different numbers have no address in common
    have hdistinct : ns.zipIdx.Pairwise fun x y => x.2 ≠ y.2 := by
      have hnumbers : (ns.zipIdx.map Prod.snd).Nodup := by
        rw [List.zipIdx_map_snd]
        exact List.nodup_range'
      exact List.pairwise_map.mp hnumbers
    refine hdistinct.imp fun {x y} hne a hx hy => hne ?_
    obtain ⟨b, -, rfl⟩ := List.mem_map.mp hx
    obtain ⟨b', -, hb'⟩ := List.mem_map.mp hy
    exact (List.cons.inj hb').1.symm

theorem nodup_addresses (n : Node) : n.addresses.Nodup := by
  induction n using inductionOn with
  | step n ih =>
    rw [addresses_eq, List.nodup_cons]
    refine ⟨?_, nodup_numbered ih⟩
    rw [mem_numbered]
    rintro ⟨i, c, b, -, -, h⟩
    cases h

theorem mem_addresses (n : Node) : ∀ a, a ∈ n.addresses ↔ (n.at? a).isSome := by
  induction n using inductionOn with
  | step n ih =>
    intro a
    rw [addresses_eq, List.mem_cons, mem_numbered]
    cases a with
    | nil => simp [at?]
    | cons i a =>
      rw [at?]
      constructor
      · rintro (h | ⟨j, c, b, hc, hb, h⟩)
        · cases h
        · cases h
          rw [hc]
          exact (ih c (List.mem_of_getElem? hc) _).mp hb
      · intro h
        obtain ⟨m, hm⟩ := Option.isSome_iff_exists.mp h
        obtain ⟨c, hc, hm⟩ := Option.bind_eq_some_iff.mp hm
        refine .inr ⟨i, c, a, hc, ?_, rfl⟩
        rw [ih c (List.mem_of_getElem? hc), hm]
        rfl

/-- The nodes at the addresses of a row of nodes. -/
theorem filterMap_numbered {α : Type} {f : Nat → Node → Address → Option α}
    {inside : Node → List Address} {ns : List Node} {g : Address → Option α}
    (h : ∀ i c, ns[i]? = some c → ∀ a ∈ inside c, g (i :: a) = f i c a) :
    (numbered inside ns).filterMap g =
      ns.zipIdx.flatMap fun (c, i) => (inside c).filterMap (f i c) := by
  rw [numbered, List.filterMap_flatMap]
  refine List.flatMap_congr ?_
  rintro ⟨c, i⟩ hc
  rw [List.filterMap_map]
  exact List.filterMap_congr fun a ha => h i c (List.mk_mem_zipIdx_iff_getElem?.mp hc) a ha

theorem flatMap_zipIdx_fst {α β : Type} (f : α → List β) (l : List α) (k : Nat) :
    ((l.zipIdx k).flatMap fun (x : α × Nat) => f x.1) = l.flatMap f := by
  rw [← List.flatMap_map (g := f) (f := Prod.fst), List.zipIdx_map_fst]

theorem filterMap_at?_numbered (ns : List Node) {g : Address → Option Node}
    (hg : ∀ i a, g (i :: a) = (ns[i]?).bind fun c => c.at? a) :
    (numbered addresses ns).filterMap g = ns.flatMap fun c => c.addresses.filterMap c.at? := by
  rw [filterMap_numbered (f := fun _ c a => c.at? a)]
  · exact flatMap_zipIdx_fst (fun c : Node => c.addresses.filterMap c.at?) ns 0
  · intro i c hc a _
    rw [hg, hc]
    rfl

theorem filterMap_at? (n : Node) :
    n.addresses.filterMap n.at? = n :: n.children.flatMap fun c => c.addresses.filterMap c.at? := by
  rw [addresses_eq, List.filterMap_cons, at?, filterMap_at?_numbered n.children fun _ _ => rfl]

/-- A tree listed from its leaves up has the nodes at its addresses. -/
theorem postorder_perm (n : Node) : n.postorder.Perm (n.addresses.filterMap n.at?) := by
  induction n using inductionOn with
  | step n ih =>
    rw [postorder_eq, filterMap_at?]
    refine List.perm_append_comm.trans (.cons n ?_)
    exact List.Perm.flatMap_left _ fun c hc => ih c hc

section Found

variable {α : Type} (visit : Unit → Node → List α × Option Unit)

/-- What a walk finds at an address within a node. -/
def foundAt? (n : Node) : Address → Option α
  | [] => (visit () n).1.head?
  | i :: a => (visit () n).2.bind fun _ => (n.children[i]?).bind fun c => foundAt? c a

theorem gather_eq_filterMap (hone : ∀ n, (visit () n).1.length ≤ 1) (n : Node) :
    gather visit () n = n.addresses.filterMap (foundAt? visit n) := by
  induction n using inductionOn with
  | step n ih =>
    have hhere : (visit () n).1 = ((visit () n).1.head?).toList := by
      cases hfound : (visit () n).1 with
      | nil => rfl
      | cons b rest =>
        have hlength := hone n
        rw [hfound, List.length_cons, Nat.succ_le_succ_iff, Nat.le_zero,
          List.length_eq_zero_iff] at hlength
        rw [hlength]
        rfl
    have hparts : (numbered addresses n.children).filterMap (foundAt? visit n) =
        match (visit () n).2 with
        | none => []
        | some _ => n.children.flatMap (gather visit ()) := by
      rw [filterMap_numbered (f := fun _ c a => (visit () n).2.bind fun _ => foundAt? visit c a)]
      · cases (visit () n).2 with
        | none => simp
        | some _ =>
          refine (flatMap_zipIdx_fst (fun c : Node => c.addresses.filterMap (foundAt? visit c))
            n.children 0).trans ?_
          exact List.flatMap_congr fun c hc => (ih c hc).symm
      · intro i c hc a _
        rw [foundAt?, hc]
        rfl
    rw [gather_eq, addresses_eq, List.filterMap_cons, hparts, foundAt?]
    cases hvisit : visit () n with
    | mk found below =>
      rw [hvisit] at hhere
      dsimp only at hhere ⊢
      rw [hhere]
      cases below <;> cases found.head? <;> simp

end Found

end Node

namespace Program

/-- The node at an address of a module. -/
def at? (p : Program) : Address → Option Node
  | [] => none
  | i :: a => (p.nodes[i]?).bind fun n => n.at? a

def addresses (p : Program) : List Address :=
  Node.numbered Node.addresses p.nodes

theorem nodup_addresses (p : Program) : p.addresses.Nodup :=
  Node.nodup_numbered fun c _ => c.nodup_addresses

theorem mem_addresses {p : Program} {a : Address} : a ∈ p.addresses ↔ (p.at? a).isSome := by
  rw [addresses, Node.mem_numbered]
  constructor
  · rintro ⟨i, c, b, hc, hb, rfl⟩
    rw [at?, hc]
    exact (c.mem_addresses b).mp hb
  · intro h
    cases a with
    | nil => cases h
    | cons i a =>
      obtain ⟨m, hm⟩ := Option.isSome_iff_exists.mp h
      obtain ⟨c, hc, hm⟩ := Option.bind_eq_some_iff.mp hm
      exact ⟨i, c, a, hc, (c.mem_addresses a).mpr (by rw [hm]; rfl), rfl⟩

theorem postorder_perm (p : Program) :
    (p.nodes.flatMap Node.postorder).Perm (p.addresses.filterMap p.at?) := by
  rw [addresses, Node.filterMap_at?_numbered p.nodes fun _ _ => rfl]
  exact List.Perm.flatMap_left _ fun c _ => c.postorder_perm

section Found

variable {α : Type} (visit : Unit → Node → List α × Option Unit)

/-- What a walk finds at an address of a module. -/
def foundAt? (p : Program) : Address → Option α
  | [] => none
  | i :: a => (p.nodes[i]?).bind fun n => Node.foundAt? visit n a

theorem gather_eq_filterMap (hone : ∀ n, (visit () n).1.length ≤ 1) (p : Program) :
    p.gather visit () = p.addresses.filterMap (p.foundAt? visit) := by
  rw [gather, addresses, Node.filterMap_numbered (f := fun _ c a => Node.foundAt? visit c a)]
  · rw [Node.flatMap_zipIdx_fst (fun c : Node => c.addresses.filterMap (Node.foundAt? visit c))]
    exact List.flatMap_congr fun c _ => Node.gather_eq_filterMap visit hone c
  · intro i c hc a _
    rw [foundAt?, hc]
    rfl

end Found

end Program

/-- The list holds the addresses that have a property, each of them once. -/
def Lists (as : List Address) (P : Address → Prop) : Prop :=
  as.Nodup ∧ ∀ a, a ∈ as ↔ P a

theorem lists_isSome {p : Program} {α : Type} {g : Address → Option α} {P : Address → Prop}
    (hg : ∀ a, (g a).isSome ↔ P a) (hat : ∀ a, P a → (p.at? a).isSome) :
    Lists (p.addresses.filter fun a => (g a).isSome) P := by
  refine ⟨p.nodup_addresses.filter _, fun a => ?_⟩
  rw [List.mem_filter, Program.mem_addresses, hg]
  exact and_iff_right_of_imp (hat a)

/-- What is taken from a list goes with the elements that it is taken from. -/
theorem forall₂_filterMap {α β : Type} (g : α → Option β) (l : List α) :
    List.Forall₂ (fun a b => g a = some b) (l.filter fun a => (g a).isSome) (l.filterMap g) := by
  induction l with
  | nil => exact .nil
  | cons a l ih =>
    cases hg : g a with
    | none => simpa [hg] using ih
    | some b => simpa [hg] using ih

end Codemod
