import Codemod.Proofs.Pass.Lossless
import Codemod.Proofs.Pass.PageConfig.Coverage
import Codemod.Proofs.Text.Cut

/-!
# Codemod.Proofs.Pass.PageConfig.Removal

What a module loses when its configuration moves out.

The pass deletes the field or the statement that holds the configuration, with a `;` behind it or
with the whole of its lines. In the text nothing else goes but blanks, and in the tree nothing else
at all: `Program.Lacks` says that one statement, or one member of one class, is left out.

* `Tidy.class_unique`: no two classes have members at one span, so what is left out at a span is one
  member of one class (`loses_prune`).
* `apart_of_field`: the deletion meets no node that is not part of the field or around it.
* `patch_removes`: what the pass cuts out of the text, and the tree that is meant to be left.
* `patch_joins_neighbors`: the text that is left need not have this tree. What stands before the cut
  may go on behind it where the `;` in between was not written out.
-/

namespace Codemod

namespace Node

/-- In one class of the tree a member is left out, and all the rest is as it was. -/
inductive Loses (x : Node) : Node → Node → Prop where
  | here (span body : Span) (name : Option String) (head before after : List Node) :
      Loses x (.classDef span name head body (before ++ x :: after))
        (.classDef span name head body (before ++ after))
  | inside {n c : Node} {f : Node → Node} (hc : c ∈ n.children)
      (hrest : ∀ d ∈ n.children, d ≠ c → f d = d) (h : Loses x c (f c)) :
      Loses x n (n.mapParts id f)

section Members

variable {source : Text} {n k k' x m : Node}

theorem members_subset (hx : x ∈ k.members) : x ∈ k.children := by
  cases k with
  | classDef => exact List.mem_append_right _ hx
  | _ => cases hx

/-- A member stands inside the braces of its class. -/
theorem Tidy.member_inside (h : k.Tidy source) (hx : x ∈ k.members) :
    k.span.start < x.span.start ∧ x.span.stop < k.span.stop := by
  cases k with
  | classDef span name head body members =>
    obtain ⟨hle, hlt, hstop, -, -, -, -, hrow, -⟩ := h.arranged
    obtain ⟨hlo, hhi⟩ := hrow.within x hx x (mem_postorder_self x)
    constructor
    · exact Nat.lt_of_le_of_lt hle hlo
    · show x.span.stop < span.stop
      omega
  | _ => cases hx

/-- Within a class, no member of a class further in stands where a member of the class does. -/
theorem Tidy.ne_of_nested (h : k.Tidy source) (hx : x ∈ k.members) {c : Node}
    (hc : c ∈ k.children) (hk' : k' ∈ c.postorder) (hm : m ∈ k'.members) : m.span ≠ x.span := by
  have hctidy := (tidy_iff.mp h).2 c hc
  have hktidy := hctidy.of_mem hk'
  have hmem : m ∈ c.postorder :=
    postorder_trans (mem_postorder_of_mem_children (members_subset hm)) hk'
  have hmsharp := (hctidy.of_mem hmem).sharp.lt
  have hstop : m.span.stop < c.span.stop :=
    Nat.lt_of_lt_of_le (hktidy.member_inside hm).2 (hctidy.stop_le hk')
  intro heq
  rw [heq] at hstop hmsharp
  obtain ⟨lo, hrow⟩ := h.arranged.row
  have hapart := apart_of_ordered hrow.ordered hc (members_subset hx) hmem (mem_postorder_self x)
  rw [heq] at hapart
  rcases hapart with rfl | hle | hle <;> omega

/-- No two classes have members at one span. -/
theorem Tidy.class_unique (h : n.Tidy source) (hk : k ∈ n.postorder) (hk' : k' ∈ n.postorder)
    (hx : x ∈ k.members) (hm : m ∈ k'.members) (hspan : m.span = x.span) : k = k' := by
  have hnested {k k' x m : Node} (hk : k ∈ n.postorder) (hx : x ∈ k.members)
      (hm : m ∈ k'.members) (hspan : m.span = x.span) (hin : k' ∈ k.postorder) : k' = k := by
    rcases mem_postorder.mp hin with rfl | ⟨c, hc, hin⟩
    · rfl
    · exact absurd hspan ((h.of_mem hk).ne_of_nested hx hc hin hm)
  rcases h.nested_or_apart hk hk' with hin | hin | hapart
  · exact hnested hk' hm hx hspan.symm hin
  · exact (hnested hk hx hm hspan hin).symm
  · have hinside := (h.of_mem hk).member_inside hx
    have hinside' := (h.of_mem hk').member_inside hm
    have hlt := ((h.of_mem hk).of_mem (mem_postorder_of_mem_children (members_subset hx))).sharp.lt
    rw [hspan] at hinside'
    omega

end Members

/-- Trees in a row: nothing outside one of them stands where a part of it does. -/
theorem Row.span_ne {lo hi : Nat} {before after : List Node} {x n y z : Node}
    (h : Row lo hi (before ++ x :: after)) (hn : n ∈ before ++ after) (hy : y ∈ n.postorder)
    (hz : z ∈ x.postorder) (hlt : z.span.start < z.span.stop) : y.span ≠ z.span := by
  obtain ⟨-, hafter, hbefore⟩ := List.pairwise_append.mp h.ordered
  intro heq
  rcases List.mem_append.mp hn with hn | hn
  · have hle := hbefore n hn x List.mem_cons_self y hy z hz
    rw [heq] at hle
    omega
  · have hle := (List.pairwise_cons.mp hafter).1 n hn z hz y hy
    rw [heq] at hle
    omega

end Node

namespace PageConfig

open Node (Loses Tidy Row mem_postorder mem_postorder_self mem_postorder_of_mem_children)

variable {source : Text} {s : Span} {n k x : Node}

theorem keepsOff_of_ne (h : n.span ≠ s) : keepsOff s n = true := by
  cases n with
  | field t name head init => exact bne_iff_ne.mpr h
  | statement t e => exact bne_iff_ne.mpr h
  | _ => rfl

theorem keepsOff_prune (keep : Node → Bool) (n : Node) :
    keepsOff s (n.prune id keep) = keepsOff s n := by
  rw [Node.prune_eq]
  cases n <;> rfl

/-- Only the members of a class are ever left out. -/
theorem thin_of_kept {keep : Node → Bool} (h : ∀ m ∈ n.members, keep m = true) :
    n.thin keep = n := by
  cases n with
  | classDef span name head body members =>
    have hfilter : members.filter keep = members := List.filter_eq_self.mpr h
    rw [Node.thin, hfilter]
  | _ => rfl

/-- A tree in which no class has a member at the span stays as it is. -/
theorem prune_of_free (h : ∀ k ∈ n.postorder, ∀ m ∈ k.members, m.span ≠ s) :
    n.prune id (keepsOff s) = n := by
  induction n using Node.inductionOn with
  | step n ih =>
    have hparts : n.mapParts id (Node.prune id (keepsOff s)) = n :=
      Node.mapParts_id_of fun c hc =>
        ih c hc fun k hk => h k (mem_postorder.mpr (.inr ⟨c, hc, hk⟩))
    rw [Node.prune_eq, hparts]
    exact thin_of_kept fun m hm => keepsOff_of_ne (h n (mem_postorder_self n) m hm)

/-- What is left out at the span of a member is this one member of its class. -/
theorem loses_prune (h : n.Tidy source) (hk : k ∈ n.postorder) (hx : x ∈ k.members)
    (hgone : keepsOff x.span x = false) : Loses x n (n.prune id (keepsOff x.span)) := by
  induction n using Node.inductionOn with
  | step n ih =>
    have hlt := ((h.of_mem hk).of_mem
      (mem_postorder_of_mem_children (Node.members_subset hx))).sharp.lt
    rcases mem_postorder.mp hk with rfl | ⟨c, hc, hkc⟩
    · -- the class itself: its parts stay, and of its members all but the one
      have hparts : k.mapParts id (Node.prune id (keepsOff x.span)) = k :=
        Node.mapParts_id_of fun c hc =>
          prune_of_free fun k' hk' m hm => h.ne_of_nested hx hc hk' hm
      rw [Node.prune_eq, hparts]
      cases k with
      | classDef span name head body members =>
        obtain ⟨before, after, rfl⟩ := List.append_of_mem hx
        obtain ⟨-, -, -, -, -, -, -, hrow, -⟩ := h.arranged
        have hother : ∀ m ∈ before ++ after, keepsOff x.span m = true := fun m hm =>
          keepsOff_of_ne (hrow.span_ne hm (mem_postorder_self m) (mem_postorder_self x) hlt)
        have hfilter : (before ++ x :: after).filter (keepsOff x.span) = before ++ after := by
          rw [List.filter_append, List.filter_cons_of_neg (by simp [hgone]), ← List.filter_append]
          exact List.filter_eq_self.mpr hother
        rw [Node.thin, hfilter]
        exact .here ..
      | _ => cases hx
    · -- around the class: all parts stay but the one with the class
      have hctidy := (Node.tidy_iff.mp h).2 c hc
      have hself : k ≠ n := by
        rintro rfl
        exact h.ne_of_nested hx hc hkc hx rfl
      have hthin : (n.mapParts id (Node.prune id (keepsOff x.span))).thin (keepsOff x.span) =
          n.mapParts id (Node.prune id (keepsOff x.span)) := by
        refine thin_of_kept fun m hm => ?_
        obtain ⟨old, hold, rfl⟩ : ∃ old ∈ n.members, old.prune id (keepsOff x.span) = m := by
          cases n with
          | classDef => exact List.mem_map.mp hm
          | _ => cases hm
        rw [keepsOff_prune]
        refine keepsOff_of_ne fun heq => hself ?_
        exact h.class_unique hk (mem_postorder_self n) hx hold heq
      rw [Node.prune_eq, hthin]
      refine .inside hc (fun d hd hne => prune_of_free fun k' hk' m hm heq => ?_)
        (ih c hc hctidy hkc)
      have hkd : k' ∈ n.postorder := mem_postorder.mpr (.inr ⟨d, hd, hk'⟩)
      obtain rfl := h.class_unique hk hkd hx hm heq
      obtain ⟨lo, hrow⟩ := h.arranged.row
      have hklt := (h.of_mem hk).sharp.lt
      rcases Node.apart_of_ordered hrow.ordered hd hc hk' hkc with rfl | hle | hle
      · exact hne rfl
      · omega
      · omega

end PageConfig

namespace Program

/-- The second module is the first one without one statement, or without one member of a class. -/
inductive Lacks (x : Node) (p q : Program) : Prop where
  | statement (before after : List Node) (hp : p.body = before ++ x :: after)
      (hq : q.body = before ++ after) (hdirectives : q.directives = p.directives)
  | member (before after : List Node) (n n' : Node) (hp : p.body = before ++ n :: after)
      (hq : q.body = before ++ n' :: after) (hloses : Node.Loses x n n')
      (hdirectives : q.directives = p.directives)

end Program

namespace PageConfig

variable {source : Text} {p : Program} {n k x : Node}

/-- Of all statements only the one that holds the node may change. -/
theorem meant_eq (h : p.Laid source) {before after : List Node}
    (hbody : p.body = before ++ n :: after) (hx : x ∈ n.postorder) :
    meant x.span p =
      ⟨p.directives, before ++
        ((([n].filter (keepsOff x.span)).map (Node.prune id (keepsOff x.span))) ++ after)⟩ := by
  have hnodes : p.nodes = (p.directives ++ before) ++ n :: after := by
    rw [Program.nodes, hbody, List.append_assoc]
  have hn : n ∈ p.nodes := by
    rw [hnodes]
    exact List.mem_append_right _ List.mem_cons_self
  have hrow := h.row
  rw [hnodes] at hrow
  have hfree (d : Node) (hd : d ∈ (p.directives ++ before) ++ after) (y : Node)
      (hy : y ∈ d.postorder) : y.span ≠ x.span :=
    hrow.span_ne hd hy hx ((h.tidy n hn).of_mem hx).sharp.lt
  have hprune (ds : List Node) (hds : ∀ d ∈ ds, d ∈ (p.directives ++ before) ++ after) :
      ds.map (Node.prune id (keepsOff x.span)) = ds := by
    refine (List.map_congr_left fun d hd => ?_).trans (List.map_id ds)
    refine prune_of_free fun k hk m hm => hfree d (hds d hd) m ?_
    exact Node.postorder_trans
      (Node.mem_postorder_of_mem_children (Node.members_subset hm)) hk
  have hkept (ds : List Node) (hds : ∀ d ∈ ds, d ∈ (p.directives ++ before) ++ after) :
      ds.filter (keepsOff x.span) = ds :=
    List.filter_eq_self.mpr fun d hd =>
      keepsOff_of_ne (hfree d (hds d hd) d (Node.mem_postorder_self d))
  have hdirectives : ∀ d ∈ p.directives, d ∈ (p.directives ++ before) ++ after := by simp +contextual
  have hbefore : ∀ d ∈ before, d ∈ (p.directives ++ before) ++ after := by simp +contextual
  have hafter : ∀ d ∈ after, d ∈ (p.directives ++ before) ++ after := by simp +contextual
  have hsplit : before ++ n :: after = before ++ ([n] ++ after) := rfl
  rw [meant, Program.prune, hprune _ hdirectives, hbody, hsplit, List.filter_append,
    List.filter_append, List.map_append, List.map_append, hkept _ hbefore, hkept _ hafter,
    hprune _ hbefore, hprune _ hafter]

/-- A statement is left out. -/
theorem lacks_statement (h : p.Laid source) (hx : x ∈ p.body) (hgone : keepsOff x.span x = false) :
    p.Lacks x (meant x.span p) := by
  obtain ⟨before, after, hbody⟩ := List.append_of_mem hx
  have hmeant := meant_eq h hbody (Node.mem_postorder_self x)
  rw [List.filter_cons_of_neg (by simp [hgone])] at hmeant
  exact .statement before after hbody (by rw [hmeant]; rfl) (by rw [hmeant])

/-- A member of a class is left out. -/
theorem lacks_member (h : p.Laid source) (hn : n ∈ p.body) (hk : k ∈ n.postorder)
    (hx : x ∈ k.members) (hgone : keepsOff x.span x = false) : p.Lacks x (meant x.span p) := by
  obtain ⟨before, after, hbody⟩ := List.append_of_mem hn
  have htidy := h.tidy n (Program.mem_nodes_of_mem_body hn)
  have hxn : x ∈ n.postorder :=
    Node.postorder_trans (Node.mem_postorder_of_mem_children (Node.members_subset hx)) hk
  have hne : n.span ≠ x.span := by
    intro heq
    have hlt := ((htidy.of_mem hk).member_inside hx).2
    have hle := htidy.stop_le hk
    rw [heq] at hle
    omega
  have hmeant := meant_eq h hbody hxn
  rw [List.filter_cons_of_pos (keepsOff_of_ne hne)] at hmeant
  exact .member before after n _ hbody (by rw [hmeant]; rfl) (loses_prune htidy hk hx hgone)
    (by rw [hmeant])

/-- The deletion of a member of a class meets no node that is neither part of it nor around it. -/
theorem apart_of_member (h : p.Laid source) (hn : n ∈ p.nodes) (hk : k ∈ n.postorder)
    (hx : x ∈ k.members) {out : Span} (hout : source.Widens x.span out) {y : Node}
    (hy : p.Has y) : x ∈ y.postorder ∨ y ∈ x.postorder ∨ out.Apart y.span := by
  have hxk := Node.mem_postorder_of_mem_children (Node.members_subset hx)
  have htidy := (h.tidy n hn).of_mem hk
  cases k with
  | classDef span name head body members =>
    have hbraces := htidy.inside_braces hx hout
    have hinside := htidy.inside_of_member hx hout
    rcases h.nested_or_apart ⟨n, hn, hk⟩ hy with hin | hin | hapart
    · exact .inl (Node.postorder_trans hxk hin)
    · rcases Node.mem_postorder.mp hin with rfl | ⟨c, hc, hyc⟩
      · exact .inl hxk
      rcases List.mem_append.mp hc with hc | hc
      · -- what stands before the braces
        obtain ⟨-, -, -, -, -, ⟨lo, hhead⟩, -, -, -⟩ := htidy.arranged
        have hle := (hhead.within c hc y hyc).2
        exact .inr (.inr (.inr (Nat.le_trans (Nat.le_succ_of_le hle) hbraces.1)))
      · rcases htidy.apart_of_members hx hc hyc hout with rfl | hapart
        · exact .inr (.inl hyc)
        · exact .inr (.inr hapart)
    · exact .inr (.inr (hapart.mono hinside (.refl _)))
  | _ => cases hx

end PageConfig

namespace PageConfig

/-- The node that holds the configuration of a component: a field of its class, or a statement at
the top that assigns to its name. -/
inductive Carries (p : Program) (c : Component) (o : ObjectLiteral) : Node → Prop where
  | field {span : Span} {head more : List Node} {value : Node}
      (hmem : .field span (some "config") head (value :: more) ∈ c.members)
      (hobject : value.bare.object? = some o) :
      Carries p c o (.field span (some "config") head (value :: more))
  | assigned {span s t u : Span} {owner : String} {value : Node} (hname : c.name? = some owner)
      (hmem : .statement span (.assign s (.member t (.reference u owner) "config") value) ∈ p.body)
      (hobject : value.bare.object? = some o) :
      Carries p c o (.statement span (.assign s (.member t (.reference u owner) "config") value))

/-- What becomes of a module when the configuration that `x` holds moves out. -/
structure Removal (script : Script) (patch : Patch) (x : Node) : Prop where
  edits : patch.edits = [.remove (script.source.removalSpan x.span)]
  /-- The text loses the node, a `;` and blanks. -/
  cut : ∃ front back, script.source.Cut x.span front back ∧
    Edit.applyAll script.source patch.edits = front ++ back
  /-- Every node that is neither part of `x` nor around it keeps its text. An empty statement may be
  the `;` that goes with `x`. -/
  keeps : ∀ y, script.program.Has y → y.Solid → x ∉ y.postorder → y ∉ x.postorder →
    (script.source.removalSpan x.span).Apart y.span ∧
      (y.span.closing (script.source.removalSpan x.span)).text
        (Edit.applyAll script.source patch.edits) = y.span.text script.source
  /-- The tree that is meant to be left is that of the module without `x`, -/
  lacks : script.program.Lacks x (meant x.span script.program)
  /-- and a module with this tree has nothing more to move. -/
  settled : ∀ entry script', script'.program.Same (meant x.span script.program) →
    PageConfig.patch entry script' = .ok .none

variable {program : Program} {c : Component} {site : Site} {x : Node}

theorem exists_carries (h : sites program c = [site]) :
    ∃ x, Carries program c site.object x ∧ x.span = site.remove := by
  have hmem : site ∈ sites program c := h ▸ List.mem_singleton_self site
  rw [sites_eq] at hmem
  rcases List.mem_append.mp hmem with hmem | hmem
  · obtain ⟨x, hx, hsite⟩ := List.mem_filterMap.mp hmem
    unfold fieldSite? at hsite
    split at hsite
    · rename_i span name head value more
      split at hsite
      · rename_i hname
        obtain ⟨o, ho, rfl⟩ := Option.map_eq_some_iff.mp hsite
        subst hname
        exact ⟨_, .field hx ho, rfl⟩
      · cases hsite
    · cases hsite
  · unfold assignedSites at hmem
    split at hmem
    · cases hmem
    · rename_i owner hname
      obtain ⟨x, hx, hsite⟩ := List.mem_filterMap.mp hmem
      unfold assignedSite? at hsite
      split at hsite
      · split at hsite
        · rename_i hfits
          obtain ⟨o, ho, rfl⟩ := Option.map_eq_some_iff.mp hsite
          obtain ⟨rfl, rfl⟩ := hfits
          exact ⟨_, .assigned hname hx ho, rfl⟩
        · cases hsite
      · cases hsite

/-- A node that holds a configuration is a statement of the module, or a member of a class in
one. -/
theorem Carries.cases {p : Program} {o : ObjectLiteral} (h : Carries p c o x)
    (hexport : p.defaultExport = .component c) :
    keepsOff x.span x = false ∧
      (x ∈ p.body ∨ ∃ n ∈ p.body, ∃ k ∈ n.postorder, x ∈ k.members) := by
  cases h with
  | field hmem _ =>
    refine ⟨by simp [keepsOff, Node.span], .inr ?_⟩
    cases c with
    | ofClass shape =>
      obtain ⟨n, hn, -, k, hk, hclass⟩ := Program.declares_of_defaultExport hexport
      cases k with
      | classDef =>
        cases hclass
        exact ⟨n, hn, _, hk, hmem⟩
      | _ => cases hclass
    | ofFunction => cases hmem
  | assigned _ hmem _ => exact ⟨by simp [keepsOff, Node.span], .inl hmem⟩

theorem move_removes {script : Script} (h : script.program.Laid script.source)
    (hexport : script.program.defaultExport = .component c)
    (hsites : sites script.program c = [site])
    (hcarries : Carries script.program c site.object x) (hspan : x.span = site.remove) :
    Removal script (move script site) x := by
  obtain ⟨hgone, hplace⟩ := hcarries.cases hexport
  have hedits : (move script site).edits = [.remove (script.source.removalSpan x.span)] := by
    rw [hspan]
    rfl
  have hsharp : x.span.Sharp script.source := by
    rw [hspan]
    exact sharp_of_mem_sites h hexport (hsites ▸ List.mem_singleton_self site)
  have hwidens : script.source.Widens x.span (script.source.removalSpan x.span) := .inr rfl
  have hfits : (Edit.remove (script.source.removalSpan x.span)).Fits script.source :=
    hwidens.fits hsharp
  have htext : Edit.applyAll script.source (move script site).edits =
      script.source.before (script.source.removalSpan x.span).start ++
        script.source.after (script.source.removalSpan x.span).stop := by
    rw [hedits, Edit.applyAll_singleton hfits]
    rfl
  have hapart (y : Node) (hy : script.program.Has y) (hsolid : y.Solid) :
      x ∈ y.postorder ∨ y ∈ x.postorder ∨ (script.source.removalSpan x.span).Apart y.span := by
    rcases hplace with hx | ⟨n, hn, k, hk, hx⟩
    · obtain ⟨b, hb, hyb⟩ := hy
      have hx := Program.mem_nodes_of_mem_body hx
      rcases h.apart_widened hx hb hwidens hyb hsolid with rfl | hapart
      · exact .inr (.inl hyb)
      · exact .inr (.inr hapart)
    · exact apart_of_member h (Program.mem_nodes_of_mem_body hn) hk hx hwidens hy
  refine ⟨hedits, ⟨_, _, Text.cut_removalSpan hsharp, htext⟩, ?_, ?_, ?_⟩
  · intro y hy hsolid hout hin
    have hapart := ((hapart y hy hsolid).resolve_left hout).resolve_left hin
    obtain ⟨hstart, hstop⟩ := Text.boundary_removalSpan hsharp
    refine ⟨hapart, ?_⟩
    rw [htext]
    exact Text.text_closing hfits.start_le_stop hstart hstop (h.sharp_of_has hy) hapart
  · rcases hplace with hx | ⟨n, hn, k, hk, hx⟩
    · exact lacks_statement h hx hgone
    · exact lacks_member h hn hk hx hgone
  · intro entry script' hsame
    rw [hspan] at hsame
    exact patch_of_meant entry hexport hsites hsame

/-- Where the pass rewrites a module, it takes the one configuration of the exported component out
of the text, with a `;` and blanks and nothing else, and the tree that it means to leave lacks this
one field or statement and nothing else. -/
theorem patch_removes {entry path : Path} {source : Text} {script : Script} {patch : Patch}
    (hparse : Script.parse path source = .ok script)
    (h : PageConfig.patch entry script = .ok patch) (hpatch : patch.isEmpty = false) :
    ∃ c o x, script.program.defaultExport = .component c ∧ Carries script.program c o x ∧
      patch.artifacts = [⟨script.path.configModule, o.asModule script.source⟩] ∧
      Removal script patch x := by
  obtain ⟨-, hlaid⟩ := Script.parse_laid hparse
  obtain ⟨c, site, hexport, hsites, rfl⟩ := of_patch h hpatch
  obtain ⟨x, hcarries, hspan⟩ := exists_carries hsites
  exact ⟨c, site.object, x, hexport, hcarries, rfl,
    move_removes hlaid hexport hsites hcarries hspan⟩

/-- The text that is left can be parsed, and has the tree that was meant. -/
def LeavesMeant (script : Script) (patch : Patch) : Prop :=
  ∃ script', Script.parse script.path (Edit.applyAll script.source patch.edits) = .ok script' ∧
    ∃ c, script.program.defaultExport = .component c ∧
      ∃ site ∈ sites script.program c, script'.program.Same (meant site.remove script.program)

theorem leavesMeant_iff {script : Script} {patch : Patch} :
    ((Script.parse script.path (Edit.applyAll script.source patch.edits)).toOption.any
      fun script' => script.program.defaultExport.component?.any fun c =>
        (sites script.program c).any fun site =>
          decide (script'.program.Same (meant site.remove script.program))) = true ↔
      LeavesMeant script patch := by
  constructor
  · intro h
    obtain ⟨script', hparse, h⟩ := exists_ok_of_any h
    cases hexport : script.program.defaultExport with
    | component c =>
      rw [hexport] at h
      obtain ⟨site, hsite, hsame⟩ := List.any_eq_true.mp h
      exact ⟨script', hparse, c, hexport, site, hsite, of_decide_eq_true hsame⟩
    | _ =>
      rw [hexport] at h
      cases h
  · rintro ⟨script', hparse, c, hexport, site, hsite, hsame⟩
    rw [hparse, hexport]
    exact List.any_eq_true.mpr ⟨site, hsite, decide_eq_true hsame⟩

instance (script : Script) (patch : Patch) : Decidable (LeavesMeant script patch) :=
  decidable_of_iff _ leavesMeant_iff

/-- The pass rewrites the module, and what is left is or is not what was meant. -/
def rewritesTo (expected : Bool) (text : Text) : Bool :=
  (Script.parse ⟨"src/a.js"⟩ text).toOption.any fun script =>
    (PageConfig.patch ⟨"src/app.js"⟩ script).toOption.any fun patch =>
      !patch.isEmpty && decide (LeavesMeant script patch) == expected

theorem of_rewritesTo {expected : Bool} {text : Text} (h : rewritesTo expected text = true) :
    ∃ script patch, Script.parse ⟨"src/a.js"⟩ text = .ok script ∧
      PageConfig.patch ⟨"src/app.js"⟩ script = .ok patch ∧ patch.isEmpty = false ∧
      decide (LeavesMeant script patch) = expected := by
  obtain ⟨script, hparse, h⟩ := exists_ok_of_any h
  obtain ⟨patch, hpatch, h⟩ := exists_ok_of_any h
  rw [Bool.and_eq_true, Bool.not_eq_true', beq_iff_eq] at h
  exact ⟨script, patch, hparse, hpatch, h.1, h.2⟩

def fieldText : Text :=
  "export default class A \x7b\n  a = 1\n  config = \x7b\x7d\n  f() \x7b\x7d\n\x7d".toList

set_option maxRecDepth 100000 in
/-- A field between two members: what is left has the tree that was meant. -/
theorem patch_removes_field :
    ∃ script patch c o x, Script.parse ⟨"src/a.js"⟩ fieldText = .ok script ∧
      PageConfig.patch ⟨"src/app.js"⟩ script = .ok patch ∧ patch.isEmpty = false ∧
      script.program.defaultExport = .component c ∧ Carries script.program c o x ∧
      patch.artifacts = [⟨script.path.configModule, o.asModule script.source⟩] ∧
      Removal script patch x ∧ LeavesMeant script patch := by
  have hcheck : rewritesTo true fieldText = true := by
    unfold fieldText
    rw [String.toList_ofList]
    decide +kernel
  obtain ⟨script, patch, hparse, hpatch, hempty, hleaves⟩ := of_rewritesTo hcheck
  obtain ⟨c, o, x, hexport, hcarries, hartifacts, hremoval⟩ := patch_removes hparse hpatch hempty
  exact ⟨script, patch, c, o, x, hparse, hpatch, hempty, hexport, hcarries, hartifacts, hremoval,
    of_decide_eq_true hleaves⟩

set_option maxRecDepth 100000 in
/-- A field without a `;` is multiplied by the name of a generator, a statement without one is
called, and of two `;` the second is lost, which was a statement. -/
theorem patch_joins_neighbors :
    ["export default class A \x7b\n  a = 1\n  config = \x7b\x7d;\n  *f() \x7b\x7d\n\x7d".toList,
      "function A() \x7b\x7d\nf()\nA.config = \x7b\x7d;\n(g)\nexport default A".toList,
      "function A() \x7b\x7d\nA.config = \x7b\x7d;;\nexport default A".toList].Forall fun text =>
        ∃ script patch, Script.parse ⟨"src/a.js"⟩ text = .ok script ∧
          PageConfig.patch ⟨"src/app.js"⟩ script = .ok patch ∧ patch.isEmpty = false ∧
          ¬ LeavesMeant script patch := by
  rw [List.forall_iff_forall_mem]
  intro text htext
  have hcheck : rewritesTo false text = true := by
    revert text
    repeat rw [String.toList_ofList]
    decide +kernel
  obtain ⟨script, patch, hparse, hpatch, hempty, hleaves⟩ := of_rewritesTo hcheck
  exact ⟨script, patch, hparse, hpatch, hempty, of_decide_eq_false hleaves⟩

end PageConfig

end Codemod
