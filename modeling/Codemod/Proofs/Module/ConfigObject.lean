import Codemod.Proofs.Pass.PageConfig

/-!
# Codemod.Proofs.Module.ConfigObject

The pages that a configuration object names do not depend on where the object stands
(`Same.pages_eq`). Nor do they depend on what is left out of the classes in it (`pages_prune`).
-/

namespace Codemod

namespace Node

variable {g : Span → Span} {keep : Node → Bool}

theorem literalValue?_prune (n : Node) : (n.prune g keep).literalValue? = n.literalValue? := by
  rw [prune_eq]
  cases n with
  | template s cooked parts => cases parts <;> rfl
  | _ => rfl

theorem stringValue?_prune (n : Node) : (n.prune g keep).stringValue? = n.stringValue? := by
  rw [stringValue?, bare_prune, literalValue?_prune, stringValue?]

/-- The value of a property with this name. -/
def valueOf? (name : String) : Node → Option Node
  | .property _ (some key) _ value => if key == name then some value else none
  | _ => none

theorem valueOf?_prune (name : String) (n : Node) :
    valueOf? name (n.prune g keep) = (valueOf? name n).map (prune g keep) := by
  rw [prune_eq]
  cases n with
  | property s key head value =>
    cases key with
    | none => rfl
    | some key =>
      simp only [mapParts, thin, valueOf?]
      split <;> rfl
  | _ => rfl

end Node

namespace ObjectLiteral

variable {g : Span → Span} {keep : Node → Bool}

theorem get?_prune (o : ObjectLiteral) (name : String) :
    (o.prune g keep).get? name = (o.get? name).map (Node.prune g keep) := by
  have hget : ∀ o : ObjectLiteral,
      o.get? name = (o.properties.filterMap (Node.valueOf? name)).head? := by
    intro o
    rw [List.head?_filterMap]
    rfl
  have hvalues : Node.valueOf? name ∘ Node.prune g keep =
      fun n => (Node.valueOf? name n).map (Node.prune g keep) :=
    funext (Node.valueOf?_prune name)
  rw [hget, hget, prune, List.filterMap_map, hvalues, ← List.map_filterMap, List.head?_map]

theorem stringElements_prune (value : Option Node) :
    stringElements (value.map (Node.prune g keep)) = stringElements value := by
  cases value with
  | none => rfl
  | some n =>
    simp only [stringElements, Option.map_some]
    rw [Node.bare_prune, Node.prune_eq]
    cases n.bare with
    | array s elements =>
      simp only [Node.mapParts, Node.thin]
      rw [List.filterMap_map]
      exact congrArg (List.filterMap · elements) (funext Node.literalValue?_prune)
    | _ => rfl

/-- The pages of one package. -/
def pagesOf (package : ObjectLiteral) : List String :=
  match (package.get? "root").bind Node.stringValue? with
  | none => []
  | some root =>
    let base := String.ofList (root.toList.reverse.dropWhile (· == '/')).reverse
    (stringElements (package.get? "pages")).map fun page => base ++ "/" ++ page

theorem pagesOf_prune (package : ObjectLiteral) :
    (package.prune g keep).pagesOf = package.pagesOf := by
  have hroot : ((package.prune g keep).get? "root").bind Node.stringValue? =
      (package.get? "root").bind Node.stringValue? := by
    rw [get?_prune, Option.bind_map]
    exact congrArg (Option.bind _) (funext Node.stringValue?_prune)
  rw [pagesOf, pagesOf, hroot, get?_prune, stringElements_prune]

def elementPages (element : Node) : List String :=
  match element.object? with
  | none => []
  | some package => package.pagesOf

theorem elementPages_prune (element : Node) :
    elementPages (element.prune g keep) = elementPages element := by
  rw [elementPages, elementPages, Node.object?_prune]
  cases element.object? with
  | none => rfl
  | some package => exact pagesOf_prune package

theorem packagePages_eq (value : Option Node) :
    packagePages value = match value.map Node.bare with
      | some (.array _ elements) => elements.flatMap elementPages
      | _ => [] :=
  rfl

theorem packagePages_prune (value : Option Node) :
    packagePages (value.map (Node.prune g keep)) = packagePages value := by
  cases value with
  | none => rfl
  | some n =>
    rw [packagePages_eq, packagePages_eq]
    simp only [Option.map_some]
    rw [Node.bare_prune, Node.prune_eq]
    cases n.bare with
    | array s elements =>
      simp only [Node.mapParts, Node.thin]
      rw [List.flatMap_map]
      exact List.flatMap_congr fun element _ => elementPages_prune element
    | _ => rfl

theorem pages_prune (o : ObjectLiteral) : (o.prune g keep).pages = o.pages := by
  simp only [pages, get?_prune, stringElements_prune, packagePages_prune]

/-- The two objects are the same but for spans. -/
def Same (a b : ObjectLiteral) : Prop :=
  a.properties.map Node.erase = b.properties.map Node.erase

instance (a b : ObjectLiteral) : Decidable (a.Same b) :=
  decidable_of_iff _ Program.map_outline_eq_iff

theorem Same.pages_eq {a b : ObjectLiteral} (h : a.Same b) : a.pages = b.pages := by
  have herase : Node.erase = Node.prune (fun _ => .nowhere) fun _ => true :=
    funext Node.erase_eq_prune
  rw [Same, herase] at h
  have hpruned : a.prune (fun _ => .nowhere) (fun _ => true) =
      b.prune (fun _ => .nowhere) fun _ => true := by
    rw [prune, prune, h]
  rw [← pages_prune a, hpruned, pages_prune]

end ObjectLiteral

end Codemod
