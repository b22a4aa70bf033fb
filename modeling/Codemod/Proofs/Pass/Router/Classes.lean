import Codemod.Proofs.Module.Ensured
import Codemod.Proofs.Pass.Again
import Codemod.Proofs.Pass.Lossless
import Codemod.Proofs.Pass.Router.Field
import Codemod.Proofs.Pass.Router.Scan
import Mathlib.Data.List.Forall2

/-!
# Codemod.Proofs.Pass.Router.Classes

What the router pass does to the classes of a module.

`Router.meant` rebuilds a tree from its leaves up, and goes over the inside of a class once for every
class around it. All the same, each class has its old members in their old order, with one field
before them if the class needs it (`classes_hosted`, `hosted_classDef`), and so it is in every module
that has this tree (`became_of_meant`).

* `patch_keeps_classes`: each class that needs the field gets it, and it is read as one member in
  front of any text that does not go on with it.
* `patch_joins_operator`: in front of a member with the name `in`, it is not.
-/

namespace Codemod

open Codemod.Parser (State Reads)

namespace Node

/-- The classes in a tree, inner classes first. -/
def classes (n : Node) : List Node :=
  n.postorder.filter fun m => m.class?.isSome

theorem classes_eq (n : Node) :
    n.classes = n.children.flatMap classes ++ if n.class?.isSome then [n] else [] := by
  rw [classes, postorder_eq, List.filter_append, List.filter_flatMap, List.filter_cons,
    List.filter_nil]
  rfl

theorem classes_of_class?_none {n : Node} (h : n.class?.isSome = false) :
    n.classes = n.children.flatMap classes := by
  rw [classes_eq, h, if_neg Bool.false_ne_true, List.append_nil]

theorem class?_isSome_mapParts (g : Span → Span) (f : Node → Node) (n : Node) :
    (n.mapParts g f).class?.isSome = n.class?.isSome := by
  cases n <;> rfl

theorem classes_erase (n : Node) : n.erase.classes = n.classes.map erase := by
  induction n using inductionOn with
  | step n ih =>
    rw [classes_eq, classes_eq n, class?_isSome_erase, children_erase, List.flatMap_map,
      List.map_append, List.map_flatMap, List.flatMap_congr ih]
    cases n.class?.isSome <;> rfl

def isThis : Node → Bool
  | .this _ => true
  | _ => false

theorem isThisMember_member (s : Span) (o : Node) (x name : String) :
    (member s o x).isThisMember name = (o.isThis && x == name) := by
  cases o <;> rfl

/-- A member of a class: a field or a method with its name, or something else. -/
def memberKey : Node → Option (Bool × Option String)
  | .field _ name _ _ => some (true, name)
  | .method _ name _ _ => some (false, name)
  | _ => none

theorem memberKey_erase (n : Node) : n.erase.memberKey = n.memberKey := by
  rw [erase_eq]
  cases n <;> rfl

end Node

theorem ClassShape.has_eq (c : ClassShape) (name : String) :
    c.has name = c.members.any fun m => m.memberKey.any fun key => key.2 == some name := by
  rw [has]
  congr
  funext m
  cases m <;> rfl

namespace Router

/-- `this.$router` is nowhere in the tree. -/
def Unread (n : Node) : Prop :=
  ∀ m ∈ n.postorder, m.isThisMember "$router" = false

theorem unread_iff {n : Node} :
    Unread n ↔ n.isThisMember "$router" = false ∧ ∀ c ∈ n.children, Unread c := by
  rw [Unread, Node.postorder_eq]
  simp only [List.mem_append, List.mem_flatMap, List.mem_singleton]
  constructor
  · intro h
    exact ⟨h n (.inr rfl), fun c hc m hm => h m (.inl ⟨c, hc, hm⟩)⟩
  · rintro ⟨hn, hparts⟩ m (⟨c, hc, hm⟩ | rfl)
    · exact hparts c hc m hm
    · exact hn

theorem unread_of_gather {n : Node} :
    ∀ inside, Node.gather visitHosted inside n = [] → Unread n := by
  induction n using Node.inductionOn with
  | step n ih =>
    intro inside h
    rw [Node.gather_eq, visitHosted] at h
    have hread : n.isThisMember "$router" = false := by
      by_contra hread
      rw [Bool.not_eq_false] at hread
      have hclass : n.class?.isSome = false := by
        cases n <;> first | rfl | cases hread
      simp [hclass, hread] at h
    refine unread_iff.mpr ⟨hread, fun c hc => ?_⟩
    cases hclass : n.class?.isSome with
    | true =>
      simp only [hclass, if_true, List.nil_append, List.flatMap_eq_nil_iff] at h
      exact ih c hc true (h c hc)
    | false =>
      simp only [hclass, hread, Bool.false_eq_true, if_false, List.nil_append,
        List.flatMap_eq_nil_iff] at h
      exact ih c hc inside (h c hc)

theorem isThisMember_mapParts {f : Node → Node} (hf : ∀ n, (f n).isThis = n.isThis) (n : Node)
    (name : String) : (n.mapParts id f).isThisMember name = n.isThisMember name := by
  cases n with
  | member s o x => rw [Node.mapParts, Node.isThisMember_member, Node.isThisMember_member, hf]
  | _ => rfl

/-- A node with the classes in it hosted. -/
def hosted (n : Node) : Node :=
  n.amend id hosting

theorem hosted_eq (n : Node) : hosted n = hosting (n.mapParts id hosted) :=
  Node.amend_eq id hosting n

theorem renamed_eq (n : Node) : renamed n = rename (n.mapParts id renamed) :=
  Node.amend_eq id rename n

theorem isThis_hosted (n : Node) : (hosted n).isThis = n.isThis := by
  rw [hosted_eq]
  cases n <;> rfl

theorem isThis_renamed (n : Node) : (renamed n).isThis = n.isThis := by
  rw [renamed_eq, rename]
  split
  · rename_i hread
    cases n <;> first | rfl | cases hread
  · cases n <;> rfl

theorem memberKey_hosted (n : Node) : (hosted n).memberKey = n.memberKey := by
  rw [hosted_eq]
  cases n <;> rfl

theorem memberKey_renamed (n : Node) : (renamed n).memberKey = n.memberKey := by
  rw [renamed_eq, rename]
  split
  · rename_i hread
    cases n <;> first | rfl | cases hread
  · cases n <;> rfl

theorem class?_isSome_hosting (n : Node) : (hosting n).class?.isSome = n.class?.isSome := by
  cases n <;> rfl

theorem class?_isSome_hosted (n : Node) : (hosted n).class?.isSome = n.class?.isSome := by
  rw [hosted_eq, class?_isSome_hosting, Node.class?_isSome_mapParts]

/-- What is not read is not renamed. -/
theorem renamed_of_unread {n : Node} (h : Unread n) : renamed n = n := by
  induction n using Node.inductionOn with
  | step n ih =>
    obtain ⟨hread, hparts⟩ := unread_iff.mp h
    have hsame : n.mapParts id renamed = n :=
      Node.mapParts_id_of fun c hc => ih c hc (hparts c hc)
    rw [renamed_eq, hsame, rename, if_neg (by simp [hread])]

theorem hosted_of_class?_none {n : Node} (hclass : n.class?.isSome = false) :
    hosted n = n.mapParts id hosted := by
  rw [hosted_eq, hosting_of_class?_none]
  rw [Node.class?_isSome_mapParts, hclass]

/-- The reads of a class itself are those it had before the classes in it were hosted. -/
theorem gather_visitOwn_hosted (n : Node) :
    Node.gather visitOwn () (hosted n) = Node.gather visitOwn () n := by
  induction n using Node.inductionOn with
  | step n ih =>
    rw [Node.gather_eq, Node.gather_eq visitOwn () n, visitOwn, visitOwn, class?_isSome_hosted]
    cases hclass : n.class?.isSome with
    | true => rfl
    | false =>
      have hparts : (n.mapParts id hosted).children.flatMap (Node.gather visitOwn ()) =
          n.children.flatMap (Node.gather visitOwn ()) := by
        rw [Node.children_mapParts, List.flatMap_map]
        exact List.flatMap_congr ih
      rw [hosted_of_class?_none hclass, isThisMember_mapParts isThis_hosted, Node.span_mapParts]
      cases n.isThisMember "$router" with
      | true => rfl
      | false => exact hparts

theorem classes_of_isThisMember {n : Node} {name : String} (h : n.isThisMember name = true) :
    n.classes = [] := by
  obtain ⟨s, t, rfl⟩ := isThisMember_iff.mp h
  rfl

/-- In a tree whose classes read nothing, renaming leaves the classes as they are. -/
theorem classes_renamed {n : Node} (h : ∀ m ∈ n.classes, Unread m) :
    (renamed n).classes = n.classes := by
  induction n using Node.inductionOn with
  | step n ih =>
    cases hclass : n.class?.isSome with
    | true =>
      rw [renamed_of_unread (h n ?_)]
      simp [Node.classes_eq n, hclass]
    | false =>
      have hmapped : (n.mapParts id renamed).class?.isSome = false := by
        rw [Node.class?_isSome_mapParts, hclass]
      rw [renamed_eq, rename, isThisMember_mapParts isThis_renamed]
      split
      · rename_i hread
        rw [classes_of_isThisMember hread]
        rfl
      · rw [Node.classes_of_class?_none hclass] at h ⊢
        rw [Node.classes_of_class?_none hmapped, Node.children_mapParts, List.flatMap_map]
        refine List.flatMap_congr fun c hc => ih c hc fun m hm => h m ?_
        exact List.mem_flatMap.mpr ⟨c, hc, hm⟩

/-- A class that reads the router itself and has no member for the instance. -/
def needy (n : Node) : Bool :=
  !(n.children.flatMap (Node.gather visitOwn ())).isEmpty &&
    n.class?.any fun c => !c.has instanceField

theorem has_map {f : Node → Node} (hf : ∀ n, (f n).memberKey = n.memberKey) (c : ClassShape)
    (name : String) : ({ c with members := c.members.map f } : ClassShape).has name = c.has name := by
  rw [ClassShape.has_eq, ClassShape.has_eq, List.any_map]
  simp only [Function.comp_def, hf]

/-- That the classes in a class are hosted does not make it need the field, nor does it spare it. -/
theorem needy_mapParts_hosted (n : Node) : needy (n.mapParts id hosted) = needy n := by
  have hparts : (n.mapParts id hosted).children.flatMap (Node.gather visitOwn ()) =
      n.children.flatMap (Node.gather visitOwn ()) := by
    rw [Node.children_mapParts, List.flatMap_map]
    exact List.flatMap_congr fun c _ => gather_visitOwn_hosted c
  rw [needy, needy, hparts]
  cases n with
  | classDef s name head body members =>
    have hhas := has_map memberKey_hosted ⟨s, name, body, members⟩ instanceField
    simp only [Node.mapParts, Node.class?, Option.any_some, id_eq, hhas]
  | _ => rfl

/-- A class that is hosted. -/
theorem hosted_classDef (s : Span) (name : Option String) (head : List Node) (body : Span)
    (members : List Node) :
    hosted (.classDef s name head body members) =
      .classDef s name (head.map fun m => renamed (hosted m)) body
        ((if needy (.classDef s name head body members) then [instanceDecl] else []) ++
          members.map fun m => renamed (hosted m)) := by
  rw [hosted_eq, ← needy_mapParts_hosted]
  simp only [Node.mapParts, hosting, List.map_map, Function.comp_def, id_eq]
  rfl

theorem unread_hosted_class {n : Node} (hclass : n.class?.isSome = true) : Unread (hosted n) := by
  refine unread_of_gather false ?_
  rw [hosted_eq]
  exact gather_hosting (by rw [Node.class?_isSome_mapParts, hclass]) false

/-- Each class of the tree is hosted, and there are no others. -/
theorem classes_hosted (n : Node) : (hosted n).classes = n.classes.map hosted := by
  induction n using Node.inductionOn with
  | step n ih =>
    have hunread {c : Node} (hc : c ∈ n.children) : ∀ m ∈ (hosted c).classes, Unread m := by
      rw [ih c hc]
      intro m hm
      obtain ⟨k, hk, rfl⟩ := List.mem_map.mp hm
      exact unread_hosted_class (List.mem_filter.mp hk).2
    cases hclass : n.class?.isSome with
    | false =>
      rw [Node.classes_of_class?_none (by rw [class?_isSome_hosted, hclass]),
        Node.classes_of_class?_none hclass, hosted_of_class?_none hclass, Node.children_mapParts,
        List.flatMap_map, List.map_flatMap]
      exact List.flatMap_congr ih
    | true =>
      have hparts : (hosted n).children.flatMap Node.classes =
          (n.children.flatMap Node.classes).map hosted := by
        cases n with
        | classDef s name head body members =>
          have hmap {ns : List Node} (hns : ∀ c ∈ ns, c ∈ head ++ members) :
              (ns.map fun m => renamed (hosted m)).flatMap Node.classes =
                ns.flatMap fun c => c.classes.map hosted := by
            rw [List.flatMap_map]
            refine List.flatMap_congr fun c hc => ?_
            rw [classes_renamed (hunread (hns c hc)), ih c (hns c hc)]
          have hfield : ((if needy (.classDef s name head body members) then [instanceDecl]
              else []) : List Node).flatMap Node.classes = [] := by
            split <;> rfl
          rw [hosted_classDef]
          simp only [Node.children, List.flatMap_append, hfield, List.nil_append, List.map_append,
            List.map_flatMap]
          rw [hmap fun c hc => List.mem_append_left _ hc, hmap fun c hc => List.mem_append_right _ hc]
        | _ => cases hclass
      rw [Node.classes_eq, Node.classes_eq n, class?_isSome_hosted, hparts, hclass]
      simp

theorem gather_visitOwn_of_unread {n : Node} (h : Unread n) :
    Node.gather visitOwn () n = [] := by
  induction n using Node.inductionOn with
  | step n ih =>
    obtain ⟨hread, hparts⟩ := unread_iff.mp h
    rw [Node.gather_eq, visitOwn, hread]
    cases n.class?.isSome with
    | true => rfl
    | false => exact List.flatMap_eq_nil_iff.mpr fun c hc => ih c hc (hparts c hc)

/-- Nothing becomes of a tree in which the router is not read. -/
theorem hosted_of_unread {n : Node} (h : Unread n) : hosted n = n := by
  induction n using Node.inductionOn with
  | step n ih =>
    have hparts := (unread_iff.mp h).2
    have hsame : n.mapParts id hosted = n :=
      Node.mapParts_id_of fun c hc => ih c hc (hparts c hc)
    rw [hosted_eq, hsame]
    cases n with
    | classDef s name head body members =>
      have hneedy : needy (.classDef s name head body members) = false := by
        rw [needy, List.flatMap_eq_nil_iff.mpr fun c hc => gather_visitOwn_of_unread (hparts c hc)]
        rfl
      have hrenamed : (Node.classDef s name head body members).mapParts id renamed =
          .classDef s name head body members :=
        Node.mapParts_id_of fun c hc => renamed_of_unread (hparts c hc)
      simp only [Node.mapParts, id_eq, Node.classDef.injEq, true_and] at hrenamed
      have hhosting : hosting (.classDef s name head body members) =
          .classDef s name (head.map renamed) body
            ((if needy (.classDef s name head body members) then [instanceDecl] else []) ++
              members.map renamed) := rfl
      rw [hhosting, hneedy, hrenamed.1, hrenamed.2]
      rfl
    | _ => rfl

end Router

/-- The classes of a module, inner classes first. -/
def Program.classes (p : Program) : List Node :=
  p.nodes.flatMap Node.classes

theorem Program.Same.classes_eq {p q : Program} (h : p.Same q) :
    p.classes.map Node.erase = q.classes.map Node.erase := by
  have herased (p : Program) : p.classes.map Node.erase = p.erase.nodes.flatMap Node.classes := by
    rw [Program.classes, List.map_flatMap, Program.nodes, Program.erase, Program.nodes,
      ← List.map_append, List.flatMap_map]
    exact List.flatMap_congr fun n _ => n.classes_erase.symm
  rw [herased, herased, h]

theorem Program.Laid.classes_of_import {p : Program} {source : Text} (h : p.Laid source) {n : Node}
    (hn : n ∈ p.body) (himport : n.isImport = true) : n.classes = [] := by
  cases n with
  | importDecl decl parts =>
    refine List.filter_eq_nil_iff.mpr fun m hm hclass => ?_
    have hproper := (h.tidy _ (Program.mem_nodes_of_mem_body hn)).isProper_of_import hm
    cases m <;> contradiction
  | _ => cases himport

theorem ImportClause.classes_node (c : ImportClause) : c.node.classes = [] :=
  rfl

/-- That one more name is imported does not concern the classes. -/
theorem flatMap_classes_ensured {body : List Node} (source name : String)
    (h : ∀ n ∈ body, n.isImport = true → n.classes = []) :
    (ensured source name body).flatMap Node.classes = body.flatMap Node.classes := by
  cases hbound : body.any fun n => (n.clause? source).any (·.binds name) with
  | true => simp only [ensured, hbound, if_true]
  | false =>
    cases hclauses : body.filterMap (Node.clause? source) with
    | nil =>
      obtain ⟨pre, post, hbody, -, -, heq⟩ := ensured_added (List.filterMap_eq_nil_iff.mp hclauses)
      rw [heq, hbody]
      simp only [List.flatMap_append, List.flatMap_cons, ImportClause.classes_node, List.nil_append]
    | cons c rest =>
      obtain ⟨pre, n, post, hbody, hpre, hn, -⟩ := List.filterMap_eq_cons_iff.mp hclauses
      have himport : n.isImport = true := by
        cases n <;> first | rfl | cases hn
      have hnone := h n (hbody ▸ List.mem_append_right _ List.mem_cons_self) himport
      rw [ensured_extended hbody hpre hn hbound, hbody]
      simp only [List.flatMap_append, List.flatMap_cons, ImportClause.classes_node, hnone]

namespace Router

/-- What has become of a class, wherever it stands. -/
structure Became (n n' : Node) : Prop where
  /-- The members are there, with what has become of them, behind the field if it was needed. -/
  members : n'.members.map Node.erase = (if needy n then [instanceDecl] else []) ++
    n.members.map fun m => (renamed (hosted m)).erase
  /-- They are the same fields and methods. -/
  keys : n'.members.map Node.memberKey =
    (if needy n then [some (true, some instanceField)] else []) ++ n.members.map Node.memberKey
  /-- Where the router is not read, nothing has changed. -/
  unread : Unread n → n'.erase = n.erase

theorem became_of_erase {n n' : Node} (hclass : n.class?.isSome = true)
    (h : n'.erase = (hosted n).erase) : Became n n' := by
  have hmembers : n'.members.map Node.erase = (if needy n then [instanceDecl] else []) ++
      n.members.map fun m => (renamed (hosted m)).erase := by
    rw [← Node.members_erase, h, Node.members_erase]
    cases n with
    | classDef s name head body members =>
      rw [hosted_classDef, Node.members, List.map_append, List.map_map]
      split <;> rfl
    | _ => cases hclass
  refine ⟨hmembers, ?_, fun hunread => by rw [h, hosted_of_unread hunread]⟩
  have hkeys := congrArg (List.map Node.memberKey) hmembers
  simp only [List.map_map, List.map_append, Function.comp_def, Node.memberKey_erase,
    memberKey_renamed, memberKey_hosted] at hkeys
  rw [hkeys]
  split <;> rfl

/-- The classes of the module that the pass means to leave. -/
theorem classes_meant {p : Program} {source : Text} (h : p.Laid source) :
    (meant p).classes = p.classes.map hosted := by
  have hbody : ∀ n ∈ p.body.map hosted, n.isImport = true → n.classes = [] := by
    intro n hn himport
    obtain ⟨m, hm, rfl⟩ := List.mem_map.mp hn
    have himport : m.isImport = true := by
      rw [hosted_eq] at himport
      cases m <;> first | rfl | cases himport
    rw [classes_hosted, h.classes_of_import hm himport, List.map_nil]
  have hmeant : meant p =
      ⟨p.directives.map hosted, ensured apiPackage instanceFactory (p.body.map hosted)⟩ := rfl
  rw [hmeant, Program.classes, Program.nodes, List.flatMap_append,
    flatMap_classes_ensured _ _ hbody, Program.classes, Program.nodes]
  simp only [List.flatMap_map, List.flatMap_append, List.map_append, List.map_flatMap,
    classes_hosted]

/-- In every module that has the tree that was meant, each class has become what it should. -/
theorem became_of_meant {p p' : Program} {source : Text} (h : p.Laid source)
    (hsame : p'.Same (meant p)) : List.Forall₂ Became p.classes p'.classes := by
  have hclasses : p.classes.map (fun n => (hosted n).erase) = p'.classes.map Node.erase := by
    rw [hsame.classes_eq, classes_meant h, List.map_map]
    rfl
  have heach : List.Forall₂ (fun n n' => (hosted n).erase = n'.erase) p.classes p'.classes := by
    rw [← List.forall₂_map_right_iff, ← List.forall₂_map_left_iff, hclasses,
      List.forall₂_eq_eq_eq]
  rw [List.forall₂_iff_zip] at heach ⊢
  refine ⟨heach.1, fun {n n'} hmem => became_of_erase ?_ (heach.2 hmem).symm⟩
  obtain ⟨m, -, hm⟩ := List.mem_flatMap.mp (List.of_mem_zip hmem).1
  exact (List.mem_filter.mp hm).2

/-- The classes that need the field, as they are written. -/
def needyShapes (p : Program) : List ClassShape :=
  (p.classes.filter needy).filterMap Node.class?

theorem filter_readers (p : Program) :
    ((readers p).filter fun c => !c.has instanceField) = needyShapes p := by
  have hclasses : p.classes =
      (p.nodes.flatMap Node.postorder).filter fun n => n.class?.isSome := by
    rw [Program.classes, List.filter_flatMap]
    rfl
  rw [needyShapes, hclasses, readers, List.filter_filterMap, List.filter_filter,
    List.filterMap_filter]
  refine List.filterMap_congr fun n _ => ?_
  rw [needy]
  cases n.class? with
  | none => simp
  | some c =>
    cases (n.children.flatMap (Node.gather visitOwn ())).isEmpty with
    | true => rfl
    | false => cases hhas : c.has instanceField <;> simp [hhas, Option.filter]

/-- What the pass does to the classes of a module. -/
structure KeepsClasses (script : Script) : Prop where
  /-- One field is added to each class that needs it, and none to any other class. -/
  fields : ∃ others, (patch script).edits =
      (needyShapes script.program).map (addField script.source script.style) ++ others ∧
    ∀ e ∈ others, e.text = "this.$instance.router".toList ∨
      script.ensureImport? apiPackage instanceFactory = some e
  lossless : Edit.Lossless script.source (patch script).edits
  /-- In front of any text that does not go on with it, the field is read as one member. -/
  reads : ∀ c ∈ needyShapes script.program, ∀ rest,
    mark script.source script.style c = [';'] ∨ Parser.endsField rest = true →
    ∀ (u : State) (d : Nat), u.rest = (addField script.source script.style c).text ++ rest →
      2 ≤ u.budget → Reads false (Parser.classMember (Parser.grammar (d + 4)))
        ('\n' :: (script.source.indentAt (anchor c) ++ rest)) (·.erase = instanceDecl) u
  /-- In a module that has the tree that was meant, each class has become what it should. -/
  classes : ∀ program' : Program, program'.Same (meant script.program) →
    List.Forall₂ Became script.program.classes program'.classes

theorem patch_keeps_classes {path : Path} {source : Text} {script : Script}
    (hparse : Script.parse path source = .ok script) (happlies : routerPass.applies script = true) :
    KeepsClasses script := by
  have hlaid := (Script.parse_laid hparse).2
  have hhosted : ((reads script.program).filter fun r => r.host.isSome).isEmpty = false := by
    rw [Bool.eq_false_iff, ne_eq, List.isEmpty_iff, List.filter_eq_nil_iff]
    simp only [routerPass, Bool.and_eq_true, List.any_eq_true] at happlies
    obtain ⟨-, r, hr, hhost⟩ := happlies
    exact fun hnone => hnone r hr hhost
  have hedits : (patch script).edits = (needyShapes script.program).map
      (addField script.source script.style) ++ (readEdits script ++
        (script.ensureImport? apiPackage instanceFactory).toList) := by
    simp only [patch, hhosted, Bool.false_eq_true, if_false, filter_readers, List.append_assoc]
    rfl
  refine ⟨⟨_, hedits, fun e he => ?_⟩, patch_lossless hlaid, ?_, ?_⟩
  · rcases List.mem_append.mp he with he | he
    · obtain ⟨r, -, rfl⟩ := List.mem_map.mp he
      exact .inl rfl
    · exact .inr (Option.mem_toList.mp he)
  · intro c _ rest hends u d hrest hbudget
    exact addField_reads script.source script.style c hends hrest hbudget d
  · exact fun program' hsame => became_of_meant hlaid hsame

/-- A class in a class, in a file without semicolons. -/
def nestedText : Text :=
  ("import 'a'\nclass A \x7b\n  f() \x7b return this.$router \x7d\n  g = class \x7b " ++
    "h = this.$router \x7d\n\x7d\nclass B \x7b x = 1 \x7d").toList

set_option maxRecDepth 100000 in
/-- Two of three classes get the field, and what is written reads back. -/
theorem patch_keeps_classes_nested :
    let path : Path := ⟨"src/a.js"⟩
    ∃ script script', Script.parse path nestedText = .ok script ∧
      (needyShapes script.program).length = 2 ∧
      (∀ c ∈ needyShapes script.program,
        Parser.endsField (script.source.after (anchor c)) = true) ∧
      KeepsClasses script ∧
      Script.parse path (routerPass.output path path nestedText) = .ok script' ∧
      script'.program.classes.length = 3 ∧
      List.Forall₂ Became script.program.classes script'.program.classes := by
  intro path
  have hcheck : (Script.parse path nestedText).toOption.any (fun script =>
      routerPass.applies script && (needyShapes script.program).length == 2 &&
        ((needyShapes script.program).all fun c =>
          Parser.endsField (script.source.after (anchor c))) &&
        (Script.parse path (routerPass.output path path nestedText)).toOption.any fun script' =>
          script'.program.classes.length == 3 &&
            decide (script'.program.Same (meant script.program))) = true := by
    unfold nestedText
    rw [String.toList_append]
    repeat rw [String.toList_ofList]
    decide +kernel
  obtain ⟨script, hparse, hcheck⟩ := exists_ok_of_any hcheck
  simp only [Bool.and_eq_true, beq_iff_eq, List.all_eq_true] at hcheck
  obtain ⟨⟨⟨happlies, hneedy⟩, hends⟩, hcheck⟩ := hcheck
  obtain ⟨script', hparse', hcheck⟩ := exists_ok_of_any hcheck
  rw [Bool.and_eq_true, beq_iff_eq, decide_eq_true_eq] at hcheck
  have hkeeps : KeepsClasses script := patch_keeps_classes hparse happlies
  exact ⟨script, script', hparse, hneedy, hends, hkeeps, hparse', hcheck.1,
    hkeeps.classes _ hcheck.2⟩

set_option maxRecDepth 100000 in
/-- A member whose name is an operator. In a file without semicolons, the field before it goes on with
it: the module cannot be parsed any more, or two members of the class are gone. -/
theorem patch_joins_operator :
    let path : Path := ⟨"src/a.js"⟩
    let torn := "import 'a'\nclass A \x7b in = this.$router \x7d".toList
    let joined := "import 'a'\nclass A \x7b in\n x\n f() \x7b this.$router \x7d \x7d".toList
    ((∃ script, Script.parse path torn = .ok script ∧ routerPass.applies script = true) ∧
      (Script.parse path (routerPass.output path path torn)).toOption.isSome = false) ∧
    ∃ script script', Script.parse path joined = .ok script ∧ routerPass.applies script = true ∧
      Script.parse path (routerPass.output path path joined) = .ok script' ∧
      script.program.classes.map (·.members.map Node.memberKey) =
        [[some (true, some "in"), some (true, some "x"), some (false, some "f")]] ∧
      script'.program.classes.map (·.members.map Node.memberKey) =
        [[some (true, some instanceField), some (false, some "f")]] := by
  intro path torn joined
  have htorn : (Script.parse path torn).toOption.any routerPass.applies = true ∧
      (Script.parse path (routerPass.output path path torn)).toOption.isSome = false := by
    unfold torn
    rw [String.toList_ofList]
    decide +kernel
  have hjoined : (Script.parse path joined).toOption.any (fun script =>
      routerPass.applies script &&
        script.program.classes.map (·.members.map Node.memberKey) ==
          [[some (true, some "in"), some (true, some "x"), some (false, some "f")]] &&
        (Script.parse path (routerPass.output path path joined)).toOption.any fun script' =>
          script'.program.classes.map (·.members.map Node.memberKey) ==
            [[some (true, some instanceField), some (false, some "f")]]) = true := by
    unfold joined
    rw [String.toList_ofList]
    decide +kernel
  obtain ⟨script₁, hparse₁, happlies₁⟩ := exists_ok_of_any htorn.1
  obtain ⟨script, hparse, hjoined⟩ := exists_ok_of_any hjoined
  simp only [Bool.and_eq_true, beq_iff_eq] at hjoined
  obtain ⟨⟨happlies, hbefore⟩, hjoined⟩ := hjoined
  obtain ⟨script', hparse', hafter⟩ := exists_ok_of_any hjoined
  exact ⟨⟨⟨script₁, hparse₁, happlies₁⟩, htorn.2⟩, script, script', hparse, happlies, hparse',
    hbefore, beq_iff_eq.mp hafter⟩

end Router

end Codemod
