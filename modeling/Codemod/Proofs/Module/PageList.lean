import Codemod.Proofs.Module.ConfigObject
import Mathlib.Data.List.TakeWhile

/-!
# Codemod.Proofs.Module.PageList

The pages that an app lists.

What a configuration object lists is told by relations on the tree: the strings of its `pages` array
and then, for each package, those of the package's own array behind its root. `Lists` puts this
together, repeats included.

* `lists_iff`: there is just one such list, whatever stands between the strings and the packages.
* `mem_pushUnique`, `pushUnique_pairwise`: of repeats the first one is kept, in its place.
* `pages_lists`: so much for the pages of an app.
-/

namespace Codemod

namespace Node

/-- The node is written as this string, or as a template of it without substitutions. -/
inductive Spells : Node → String → Prop where
  | string (span : Span) (value : String) : Spells (.string span value) value
  | template (span : Span) (value : String) : Spells (.template span (some value) []) value

theorem literalValue?_eq_some_iff {n : Node} {value : String} :
    n.literalValue? = some value ↔ n.Spells value := by
  constructor
  · intro h
    cases n with
    | string span text =>
      cases h
      exact .string span value
    | template span cooked parts =>
      cases parts with
      | nil =>
        cases h
        exact .template span value
      | cons part parts => cases h
    | _ => cases h
  · rintro (⟨span, value⟩ | ⟨span, value⟩) <;> rfl

theorem valueOf?_eq_some_iff {n value : Node} {name : String} :
    n.valueOf? name = some value ↔ ∃ span key, n = .property span (some name) key value := by
  constructor
  · intro h
    cases n with
    | property span own key v =>
      cases own with
      | none => cases h
      | some own =>
        rw [valueOf?] at h
        split at h
        · rename_i hname
          cases h
          exact ⟨span, key, by rw [eq_of_beq hname]⟩
        · cases h
    | _ => cases h
  · rintro ⟨span, key, rfl⟩
    rw [valueOf?, beq_self_eq_true, if_pos rfl]

end Node

namespace ObjectLiteral

/-- The first property with this name has this value. -/
def Assigns (o : ObjectLiteral) (name : String) (value : Node) : Prop :=
  ∃ front span key back, o.properties = front ++ .property span (some name) key value :: back ∧
    ∀ span key value, Node.property span (some name) key value ∉ front

/-- The elements of the array that a property has as its value, with parentheses and types around it
or not. There are none if the value is not an array. -/
inductive Holds (o : ObjectLiteral) (name : String) : List Node → Prop where
  | array {value : Node} {span : Span} {elements : List Node} (hvalue : o.Assigns name value)
      (harray : value.bare = .array span elements) : Holds o name elements
  | nothing (hnone : ∀ value span elements, o.Assigns name value →
      value.bare ≠ .array span elements) : Holds o name []

/-- `names` are what the elements of a list stand for, one after the other. Elements that stand for
nothing are passed over. -/
inductive Collects (R : Node → List String → Prop) : List Node → List String → Prop where
  | nil : Collects R [] []
  | take {n : Node} {ns : List Node} {names rest : List String} (hn : R n names)
      (hns : Collects R ns rest) : Collects R (n :: ns) (names ++ rest)
  | pass {n : Node} {ns : List Node} {rest : List String} (hn : ∀ names, ¬ R n names)
      (hns : Collects R ns rest) : Collects R (n :: ns) rest

/-- The one name that a string stands for. -/
inductive Written : Node → List String → Prop where
  | name {n : Node} {value : String} (h : n.Spells value) : Written n [value]

/-- `base` is `root` without the slashes at its end. -/
def Rooted (root base : String) : Prop :=
  ∃ k, root.toList = base.toList ++ List.replicate k '/' ∧ base.toList.getLast? ≠ some '/'

/-- The names that a package stands for: those of its pages, behind its root. -/
inductive Packs : Node → List String → Prop where
  | package {span : Span} {properties elements : List Node} {value : Node} {root base : String}
      {names : List String} (hroot : Assigns ⟨span, properties⟩ "root" value)
      (hvalue : value.bare.Spells root) (hbase : Rooted root base)
      (hpages : Holds ⟨span, properties⟩ "pages" elements)
      (hnames : Collects Written elements names) :
      Packs (.object span properties) (names.map fun name => base ++ "/" ++ name)

/-- `names` are what an app lists: its own pages, then those of the packages under each of the two
spellings of the key. -/
def Lists (o : ObjectLiteral) (names : List String) : Prop :=
  ∃ elements packages packages' own first second,
    o.Holds "pages" elements ∧ Collects Written elements own ∧
    o.Holds "subPackages" packages ∧ Collects Packs packages first ∧
    o.Holds "subpackages" packages' ∧ Collects Packs packages' second ∧
    names = own ++ first ++ second

section Reading

variable {o : ObjectLiteral} {name : String} {names : List String} {elements : List Node}

theorem get?_eq_some_iff {value : Node} : o.get? name = some value ↔ o.Assigns name value := by
  have hget : o.get? name = o.properties.findSome? (Node.valueOf? name) := rfl
  rw [hget, List.findSome?_eq_some_iff]
  constructor
  · rintro ⟨front, n, back, hsplit, hn, hfront⟩
    obtain ⟨span, key, rfl⟩ := Node.valueOf?_eq_some_iff.mp hn
    refine ⟨front, span, key, back, hsplit, ?_⟩
    intro span' key' value' hmem
    have hsome : Node.valueOf? name (.property span' (some name) key' value') = some value' :=
      Node.valueOf?_eq_some_iff.mpr ⟨span', key', rfl⟩
    rw [hfront _ hmem] at hsome
    cases hsome
  · rintro ⟨front, span, key, back, hsplit, hfront⟩
    refine ⟨front, _, back, hsplit, Node.valueOf?_eq_some_iff.mpr ⟨span, key, rfl⟩, ?_⟩
    intro n hn
    rw [Option.eq_none_iff_forall_ne_some]
    intro value' hvalue
    obtain ⟨span', key', rfl⟩ := Node.valueOf?_eq_some_iff.mp hvalue
    exact hfront span' key' value' hn

/-- The elements of an array, which may have wrappers around it. -/
def elementsOf (value : Option Node) : List Node :=
  match value.map Node.bare with
  | some (.array _ elements) => elements
  | _ => []

theorem stringElements_eq (value : Option Node) :
    stringElements value = (elementsOf value).filterMap Node.literalValue? := by
  rw [stringElements, elementsOf]
  cases value.map Node.bare with
  | none => rfl
  | some n => cases n <;> rfl

theorem packagePages_eq_flatMap (value : Option Node) :
    packagePages value = (elementsOf value).flatMap elementPages := by
  rw [packagePages_eq, elementsOf]
  cases value.map Node.bare with
  | none => rfl
  | some n => cases n <;> rfl

theorem holds_iff : o.Holds name elements ↔ elements = elementsOf (o.get? name) := by
  constructor
  · rintro (⟨hvalue, harray⟩ | hnone)
    · rw [elementsOf, get?_eq_some_iff.mpr hvalue, Option.map_some, harray]
    · rw [elementsOf]
      split
      · rename_i span elements hbare
        obtain ⟨value, hvalue, harray⟩ := Option.map_eq_some_iff.mp hbare
        exact absurd harray (hnone value span elements (get?_eq_some_iff.mp hvalue))
      · rfl
  · rintro rfl
    rw [elementsOf]
    split
    · rename_i span elements hbare
      obtain ⟨value, hvalue, harray⟩ := Option.map_eq_some_iff.mp hbare
      exact .array (get?_eq_some_iff.mp hvalue) harray
    · rename_i hbare
      refine .nothing ?_
      intro value span elements hvalue harray
      apply hbare span elements
      rw [get?_eq_some_iff.mpr hvalue, Option.map_some, harray]

/-- Where a function tells what an element stands for, it tells what a list collects. -/
theorem collects_iff {R : Node → List String → Prop} {f : Node → List String}
    (hsome : ∀ n names, R n names → names = f n) (hnone : ∀ n, (∀ names, ¬ R n names) → f n = []) :
    Collects R elements names ↔ names = elements.flatMap f := by
  constructor
  · intro h
    induction h with
    | nil => rfl
    | take hn _ ih => rw [List.flatMap_cons, ← hsome _ _ hn, ← ih]
    | pass hn _ ih => rw [List.flatMap_cons, hnone _ hn, List.nil_append, ← ih]
  · rintro rfl
    induction elements with
    | nil => exact .nil
    | cons n ns ih =>
      rw [List.flatMap_cons]
      by_cases h : ∃ names, R n names
      · obtain ⟨names, hn⟩ := h
        rw [← hsome n names hn]
        exact .take hn ih
      · have hn : ∀ names, ¬ R n names := fun names hR => h ⟨names, hR⟩
        rw [hnone n hn, List.nil_append]
        exact .pass hn ih

theorem collects_written_iff :
    Collects Written elements names ↔ names = elements.filterMap Node.literalValue? := by
  rw [List.filterMap_eq_flatMap_toList]
  refine collects_iff ?_ ?_
  · rintro n _ ⟨h⟩
    rw [Node.literalValue?_eq_some_iff.mpr h]
    rfl
  · intro n hn
    cases hvalue : n.literalValue? with
    | none => rfl
    | some value => exact absurd (.name (Node.literalValue?_eq_some_iff.mp hvalue)) (hn [value])

theorem rooted_iff {root base : String} :
    Rooted root base ↔ base = String.ofList (root.toList.reverse.dropWhile (· == '/')).reverse := by
  constructor
  · rintro ⟨k, hroot, hlast⟩
    have hslashes : ∀ c ∈ List.replicate k '/', (c == '/') = true := by
      intro c hc
      rw [List.eq_of_mem_replicate hc]
      rfl
    have hbase : base.toList.reverse.dropWhile (· == '/') = base.toList.reverse := by
      cases hback : base.toList.reverse with
      | nil => rfl
      | cons c cs =>
        rw [← List.head?_reverse, hback, List.head?_cons, ne_eq, Option.some.injEq] at hlast
        rw [List.dropWhile_cons_of_neg (by simpa using hlast)]
    rw [hroot, List.reverse_append, List.reverse_replicate, List.dropWhile_append_of_pos hslashes,
      hbase, List.reverse_reverse, String.ofList_toList]
  · rintro rfl
    have hsplit := List.takeWhile_append_dropWhile (p := (· == '/')) (l := root.toList.reverse)
    have hslashes : root.toList.reverse.takeWhile (· == '/') =
        List.replicate (root.toList.reverse.takeWhile (· == '/')).length '/' := by
      rw [List.eq_replicate_iff]
      refine ⟨rfl, ?_⟩
      intro c hc
      exact eq_of_beq (List.mem_takeWhile_imp (p := (· == '/')) hc)
    refine ⟨(root.toList.reverse.takeWhile (· == '/')).length, ?_, ?_⟩
    · calc
        root.toList = (root.toList.reverse.takeWhile (· == '/') ++
            root.toList.reverse.dropWhile (· == '/')).reverse := by
          rw [hsplit, List.reverse_reverse]
        _ = (root.toList.reverse.dropWhile (· == '/')).reverse ++
            (root.toList.reverse.takeWhile (· == '/')).reverse := by
          rw [List.reverse_append]
        _ = _ := by
          rw [String.toList_ofList]
          conv_lhs => rw [hslashes, List.reverse_replicate]
    · rw [String.toList_ofList, List.getLast?_reverse]
      intro hhead
      have hnot := List.head?_dropWhile_not (· == '/') root.toList.reverse
      rw [hhead] at hnot
      simp at hnot

theorem eq_of_packs {n : Node} (h : Packs n names) : names = elementPages n := by
  obtain ⟨hroot, hvalue, hbase, hpages, hnames⟩ := h
  rename_i span properties elements value root base names
  have hfound : (get? ⟨span, properties⟩ "root").bind Node.stringValue? = some root := by
    rw [get?_eq_some_iff.mpr hroot]
    exact Node.literalValue?_eq_some_iff.mpr hvalue
  rw [elementPages, Node.object?]
  simp only
  rw [pagesOf, hfound]
  simp only
  rw [stringElements_eq, ← holds_iff.mp hpages, ← collects_written_iff.mp hnames,
    ← rooted_iff.mp hbase]

theorem elementPages_eq_nil {n : Node} (h : ∀ names, ¬ Packs n names) : elementPages n = [] := by
  cases n with
  | object span properties =>
    rw [elementPages, Node.object?]
    simp only
    rw [pagesOf]
    cases hfound : (get? ⟨span, properties⟩ "root").bind Node.stringValue? with
    | none => rfl
    | some root =>
      obtain ⟨value, hvalue, hroot⟩ := Option.bind_eq_some_iff.mp hfound
      exact absurd (.package (get?_eq_some_iff.mp hvalue) (Node.literalValue?_eq_some_iff.mp hroot)
        (rooted_iff.mpr rfl) (holds_iff.mpr rfl) (collects_written_iff.mpr rfl)) (h _)
  | _ => rfl

theorem collects_packs_iff :
    Collects Packs elements names ↔ names = elements.flatMap elementPages :=
  collects_iff (fun _ _ => eq_of_packs) fun _ => elementPages_eq_nil

theorem lists_iff : o.Lists names ↔ names = stringElements (o.get? "pages") ++
    packagePages (o.get? "subPackages") ++ packagePages (o.get? "subpackages") := by
  simp only [Lists, holds_iff, collects_written_iff, collects_packs_iff, stringElements_eq,
    packagePages_eq_flatMap]
  constructor
  · rintro ⟨_, _, _, _, _, _, rfl, rfl, rfl, rfl, rfl, rfl, rfl⟩
    rfl
  · rintro rfl
    exact ⟨_, _, _, _, _, _, rfl, rfl, rfl, rfl, rfl, rfl, rfl⟩

end Reading

section Unique

variable {seen done xs : List String}

theorem mem_pushUnique {x : String} : x ∈ pushUnique seen xs ↔ x ∈ seen ∨ x ∈ xs := by
  induction xs generalizing seen with
  | nil => simp [pushUnique]
  | cons y ys ih =>
    rw [pushUnique, ih]
    split
    · rename_i hy
      have hmem : y ∈ seen := List.mem_of_elem_eq_true hy
      constructor
      · rintro (h | h)
        · exact .inl h
        · exact .inr (List.mem_cons_of_mem y h)
      · rintro (h | h)
        · exact .inl h
        · rcases List.mem_cons.mp h with rfl | h
          · exact .inl hmem
          · exact .inr h
    · rw [List.mem_append, List.mem_singleton, List.mem_cons, or_assoc]

/-- What has been kept stands in the order in which it occurs first. `done` is what has been read;
the step is that what comes next either has occurred in it or occurs for the first time. -/
theorem pushUnique_pairwise (hmem : ∀ x, x ∈ seen ↔ x ∈ done)
    (h : seen.Pairwise fun x y => (done ++ xs).idxOf x < (done ++ xs).idxOf y) :
    (pushUnique seen xs).Pairwise fun x y => (done ++ xs).idxOf x < (done ++ xs).idxOf y := by
  induction xs generalizing seen done with
  | nil => exact h
  | cons y ys ih =>
    have hnext : done ++ y :: ys = (done ++ [y]) ++ ys := by simp
    rw [pushUnique]
    rw [hnext] at h ⊢
    split
    · rename_i hy
      have hdone : y ∈ done := (hmem y).mp (List.mem_of_elem_eq_true hy)
      refine ih ?_ h
      intro x
      rw [List.mem_append, List.mem_singleton, hmem]
      constructor
      · exact .inl
      · rintro (hx | rfl)
        · exact hx
        · exact hdone
    · rename_i hy
      have hnew : y ∉ done := by
        rw [← hmem]
        exact fun hmem => hy (List.elem_eq_true_of_mem hmem)
      refine ih ?_ ?_
      · intro x
        rw [List.mem_append, List.mem_append, hmem]
      · rw [List.pairwise_append]
        refine ⟨h, List.pairwise_singleton _ _, ?_⟩
        intro x hx z hz
        rw [List.mem_singleton.mp hz, ← hnext, List.idxOf_append_of_mem ((hmem x).mp hx),
          List.idxOf_append_of_notMem hnew, List.idxOf_cons_self]
        exact List.idxOf_lt_length_of_mem ((hmem x).mp hx)

end Unique

/-- The pages of an app are what its configuration lists, each once: there is just one list of that,
and its repeats give way to what comes first in it. -/
theorem pages_lists (o : ObjectLiteral) :
    ∃ names, (∀ names', o.Lists names' ↔ names' = names) ∧ o.pages.Nodup ∧
      (∀ page, page ∈ o.pages ↔ page ∈ names) ∧
      o.pages.Pairwise fun p q => names.idxOf p < names.idxOf q := by
  have hpairwise (names : List String) :
      (pushUnique [] names).Pairwise fun p q => names.idxOf p < names.idxOf q :=
    @pushUnique_pairwise [] [] names (fun _ => Iff.rfl) .nil
  refine ⟨_, fun names' => lists_iff, (hpairwise _).imp ?_, ?_, hpairwise _⟩
  · rintro p q hlt rfl
    exact Nat.lt_irrefl _ hlt
  · intro page
    rw [pages, mem_pushUnique, or_iff_right List.not_mem_nil]

/-- A spread, a hole, a string in parentheses and a name are passed over, and so is a package that is
none. The page `d/e` is listed twice. -/
example :
    let source := "x = \x7b pages: ['a', ...b, , ('c'), `d`, 'a'],\n".toList ++
      "  subPackages: [\x7b root: 'd//', pages: ['e', f] \x7d, 'g'],\n".toList ++
      "  subpackages: ([\x7b root: (`d`), pages: ['e', 'h'] \x7d]) \x7d".toList
    (Script.parse ⟨"app.config.js"⟩ source).toOption.bind (fun script =>
      script.program.objects.head?.map (·.pages)) = some ["a", "d", "d/e", "d/h"] := by
  repeat rw [String.toList_ofList]
  decide +kernel

end ObjectLiteral

end Codemod
