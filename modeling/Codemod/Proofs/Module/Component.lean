import Codemod.Module.Component
import Codemod.Proofs.Syntax.Neighbors

/-!
# Codemod.Proofs.Module.Component

Where the class of a component stands: in a declaration or a default export at the top of the
module, never in an expression statement.
-/

namespace Codemod

namespace Node

theorem bare_mem_postorder (n : Node) : n.bare ∈ n.postorder := by
  induction n using inductionOn with
  | step n ih =>
    cases n with
    | wrapped span inner marks =>
      exact mem_postorder.mpr (.inr ⟨inner, by simp [children], ih inner (by simp [children])⟩)
    | _ => exact mem_postorder_self _

variable {name : String} {n : Node} {c : ClassShape}

/-- The kinds of statements that are told apart here. -/
inductive Role where
  | declared
  | assigned
  | called
  | evaluated
  | imported
  deriving DecidableEq

def role : Node → Role
  | .importDecl .. => .imported
  | .statement _ (.assign ..) => .assigned
  | .statement _ (.call ..) => .called
  | .statement .. => .evaluated
  | _ => .declared

theorem class_of_declares? (h : n.declares? name = some (.ofClass c)) :
    n.role = .declared ∧ ∃ y ∈ n.postorder, y.class? = some c := by
  unfold declares? at h
  split at h
  · split at h
    · cases h
      exact ⟨rfl, _, mem_postorder_self _, rfl⟩
    · cases h
  · split at h <;> cases h
  · obtain ⟨d, hd, hdecl⟩ := List.exists_of_findSome?_eq_some h
    refine ⟨rfl, ?_⟩
    split at hdecl
    · rename_i span own head init rest
      split at hdecl
      · split at hdecl
        · cases hdecl
        · cases hdecl
        · obtain ⟨c', hc, heq⟩ := Option.map_eq_some_iff.mp hdecl
          cases heq
          refine ⟨init.bare, ?_, hc⟩
          have hinit : init.bare ∈ (declarator span own head (init :: rest)).postorder :=
            mem_postorder.mpr (.inr ⟨init, by simp [children], bare_mem_postorder init⟩)
          exact mem_postorder.mpr (.inr ⟨_, hd, hinit⟩)
      · cases hdecl
    · cases hdecl
  · cases h

end Node

namespace Program

/-- The class stands in a declaration or a default export at the top of the module. -/
def Declares (p : Program) (c : ClassShape) : Prop :=
  ∃ n ∈ p.body, n.role = .declared ∧ ∃ y ∈ n.postorder, y.class? = some c

variable {p : Program} {name : String} {value : Node} {c : ClassShape}

theorem declares_of_component? (h : p.component? name = some (.ofClass c)) : p.Declares c := by
  obtain ⟨n, hn, hdecl⟩ := List.exists_of_findSome?_eq_some h
  split at hdecl
  · rename_i span declaration parts
    obtain ⟨d, hd, hdecl⟩ := List.exists_of_findSome?_eq_some hdecl
    obtain ⟨-, y, hy, hc⟩ := Node.class_of_declares? hdecl
    exact ⟨_, hn, rfl, y, Node.mem_postorder.mpr (.inr ⟨d, List.mem_append_left _ hd, hy⟩), hc⟩
  · obtain ⟨hnot, y, hy, hc⟩ := Node.class_of_declares? hdecl
    exact ⟨n, hn, hnot, y, hy, hc⟩

theorem declares_of_resolve {span : Span} (hvalue : .exportDefault span value ∈ p.body)
    (h : p.resolve value = .component (.ofClass c)) : p.Declares c := by
  unfold resolve at h
  split at h
  · cases h
  · rename_i hbare
    cases h
    refine ⟨_, hvalue, rfl, value.bare, ?_, by rw [hbare]; rfl⟩
    exact Node.mem_postorder.mpr (.inr ⟨value, List.mem_singleton_self _, Node.bare_mem_postorder _⟩)
  · cases h
  · cases h
  · split at h
    · rename_i hcomponent
      cases h
      exact declares_of_component? hcomponent
    · cases h
  · split at h
    · rename_i hfound
      cases h
      have hmem : Component.ofClass c ∈ _ := hfound ▸ List.mem_singleton_self _
      obtain ⟨name, -, hcomponent⟩ := List.mem_filterMap.mp hmem
      exact declares_of_component? hcomponent
    · cases h
    · cases h
  · cases h

theorem declares_of_defaultExport (h : p.defaultExport = .component (.ofClass c)) :
    p.Declares c := by
  simp only [defaultExport] at h
  split at h
  · cases h
  · rename_i value hvalues
    have hmem : value ∈ _ := hvalues ▸ List.mem_singleton_self _
    obtain ⟨n, hn, hvalue⟩ := List.mem_filterMap.mp hmem
    split at hvalue
    · cases hvalue
      exact declares_of_resolve hn h
    · cases hvalue
  · cases h

theorem declares_of_plainClasses (h : c ∈ p.plainClasses) : p.Declares c := by
  obtain ⟨n, hn, hc⟩ := List.mem_filterMap.mp h
  refine ⟨n, hn, ?_, n, Node.mem_postorder_self n, hc⟩
  cases n with
  | classDef => rfl
  | _ => cases hc

theorem Declares.classDef (h : p.Declares c) : ∃ n ∈ p.nodes, n.role = .declared ∧
    ∃ head, .classDef c.span c.name head c.body c.members ∈ n.postorder := by
  obtain ⟨n, hn, hrole, y, hy, hc⟩ := h
  cases y with
  | classDef span name head body members =>
    cases hc
    exact ⟨n, List.mem_append_right _ hn, hrole, head, hy⟩
  | _ => cases hc

/-- A configuration in a class is a member of it. -/
theorem mem_configs {span : Span} {object : ObjectLiteral} (h : (span, object) ∈ c.configs) :
    ∃ name head init, .field span name head init ∈ c.members := by
  obtain ⟨f, hf, hconfig⟩ := List.mem_filterMap.mp h
  split at hconfig
  · obtain ⟨_, -, heq⟩ := Option.map_eq_some_iff.mp hconfig
    cases heq
    exact ⟨_, _, _, hf⟩
  · cases hconfig

/-- A configuration that is assigned is a statement of its own. -/
theorem mem_assignedConfigs {owner : String} {span : Span} {object : ObjectLiteral}
    (h : (owner, span, object) ∈ p.assignedConfigs) :
    ∃ s target value, .statement span (.assign s target value) ∈ p.body := by
  obtain ⟨n, hn, hconfig⟩ := List.mem_filterMap.mp h
  split at hconfig
  · obtain ⟨_, -, heq⟩ := Option.map_eq_some_iff.mp hconfig
    cases heq
    exact ⟨_, _, _, hn⟩
  · cases hconfig

end Program

end Codemod
