import Codemod.Proofs.Module.ConfigObject

/-!
# Codemod.Proofs.Module.Reshape

Trees whose objects have other properties.

`Node.reshape` gives the objects of a tree other properties. All that is not an object stays what it
is, so what a property holds can be followed through it (`get?_map_reshape`), and so can the
value of a string.
-/

namespace Codemod

namespace Node

/-- An object with other properties. -/
def onObjects (h : Span → List Node → List Node) : Node → Node
  | .object span properties => .object span (h span properties)
  | n => n

/-- The tree with other spans, and other properties in its objects. -/
def reshape (g : Span → Span) (h : Span → List Node → List Node) (n : Node) : Node :=
  n.amend g (onObjects h)

variable {g : Span → Span} {h : Span → List Node → List Node}

theorem reshape_eq (n : Node) : n.reshape g h = onObjects h (n.mapParts g (reshape g h)) :=
  amend_eq g (onObjects h) n

theorem onObjects_id : onObjects (fun _ ps => ps) = id := by
  funext n
  cases n <;> rfl

theorem erase_eq_reshape : erase = reshape (fun _ => .nowhere) fun _ ps => ps := by
  funext n
  rw [erase, reshape, onObjects_id]

theorem children_reshape {n : Node} (hobject : n.object? = none) :
    (n.reshape g h).children = n.children.map (reshape g h) := by
  rw [reshape_eq, ← children_mapParts]
  cases n with
  | object => cases hobject
  | _ => rfl

theorem bare_reshape (n : Node) : (n.reshape g h).bare = n.bare.reshape g h := by
  induction n using inductionOn with
  | step n ih =>
    cases n with
    | wrapped s inner parts =>
      rw [reshape_eq]
      exact ih inner List.mem_cons_self
    | _ =>
      simp only [bare]
      rw [reshape_eq]
      rfl

theorem literalValue?_reshape (n : Node) : (n.reshape g h).literalValue? = n.literalValue? := by
  rw [reshape_eq]
  cases n with
  | template s cooked parts => cases parts <;> rfl
  | _ => rfl

theorem stringValue?_reshape (n : Node) : (n.reshape g h).stringValue? = n.stringValue? := by
  rw [stringValue?, bare_reshape, literalValue?_reshape, stringValue?]

theorem valueOf?_reshape (name : String) (n : Node) :
    valueOf? name (n.reshape g h) = (valueOf? name n).map (reshape g h) := by
  rw [reshape_eq]
  cases n with
  | property s key head value =>
    cases key with
    | none => rfl
    | some key =>
      simp only [mapParts, onObjects, valueOf?]
      split <;> rfl
  | _ => rfl

end Node

namespace ObjectLiteral

variable {g : Span → Span} {h : Span → List Node → List Node} {span : Span} {name : String}
  {ps qs : List Node}

def reshape (g : Span → Span) (h : Span → List Node → List Node) (o : ObjectLiteral) :
    ObjectLiteral :=
  ⟨g o.span, h (g o.span) (o.properties.map (Node.reshape g h))⟩

theorem object?_reshape (n : Node) : (n.reshape g h).object? = n.object?.map (reshape g h) := by
  rw [Node.reshape_eq]
  cases n <;> rfl

/-- Of properties with one name the first one counts. -/
theorem get?_append (name : String) :
    get? ⟨span, ps ++ qs⟩ name = (get? ⟨span, ps⟩ name).or (get? ⟨span, qs⟩ name) :=
  List.findSome?_append

theorem get?_map_reshape (o : ObjectLiteral) (span : Span) (name : String) :
    get? ⟨span, o.properties.map (Node.reshape g h)⟩ name =
      (o.get? name).map (Node.reshape g h) := by
  show (o.properties.map (Node.reshape g h)).findSome? (Node.valueOf? name) =
    (o.properties.findSome? (Node.valueOf? name)).map (Node.reshape g h)
  rw [List.findSome?_map, List.map_findSome?]
  exact congrArg (List.findSome? · o.properties) (funext (Node.valueOf?_reshape name))

/-- An object still has its properties if more are added. -/
theorem has_reshape {o : ObjectLiteral}
    (hmore : ∀ span ps, ∃ qs, h span ps = ps ++ qs) (hhas : o.has name = true) :
    (o.reshape g h).has name = true := by
  obtain ⟨value, hvalue⟩ := Option.isSome_iff_exists.mp hhas
  obtain ⟨qs, hqs⟩ := hmore (g o.span) (o.properties.map (Node.reshape g h))
  rw [reshape, hqs, has, get?_append, get?_map_reshape, hvalue]
  rfl

end ObjectLiteral

end Codemod
