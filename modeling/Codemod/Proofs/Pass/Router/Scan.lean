import Codemod.Pass.Router
import Codemod.Proofs.Syntax.Address
import Mathlib.Data.Option.Basic

/-!
# Codemod.Proofs.Pass.Router.Scan

The router pass finds what it looks for, wherever it stands in a tree.

The pass walks a module with the innermost class as its context, and looks into every class a second
time to see whether that class has reads of its own. Here both walks are given by addresses. A read
belongs to the class `Hosts` names: a class above it with no class in between.

* `reads_eq`: every `this.$router` is found once, with the innermost class above it.
* `readers_perm`: the classes that get a field are those that host a read.
* `patch_exact`: what the patch is made of.
-/

namespace Codemod

namespace Program

/-- The class at an address. -/
def classAt? (p : Program) (a : Address) : Option ClassShape :=
  (p.at? a).bind Node.class?

end Program

namespace Router

/-- `this.$router` stands at the address. -/
def ReadAt (p : Program) (a : Address) : Prop :=
  ∃ s t, p.at? a = some (.member s (.this t) "$router")

/-- The class at `h` is above the address `a`. -/
def ClassAbove (p : Program) (h a : Address) : Prop :=
  (p.classAt? h).isSome ∧ h <+: a ∧ h ≠ a

/-- The class at `h` is the innermost one above the address `a`. -/
def Hosts (p : Program) (h a : Address) : Prop :=
  ClassAbove p h a ∧ ∀ k, ClassAbove p k a → k <+: h

section Within

/-- The innermost class above an address within a node, which itself has `host` above it. -/
def hostAt (host : Option ClassShape) (n : Node) : Address → Option ClassShape
  | [] => host
  | i :: a => (n.children[i]?).bind fun c => hostAt (n.class?.or host) c a

/-- No class stands on the way to an address within a node, the node itself included. -/
def Clear (n : Node) (a : Address) : Prop :=
  ∀ b, b <+: a → b ≠ a → (n.at? b).bind Node.class? = none

theorem clear_nil (n : Node) : Clear n [] := by
  intro b hb hne
  exact absurd (List.prefix_nil.mp hb) hne

theorem clear_cons {n c : Node} {i : Nat} {a : Address} (hc : n.children[i]? = some c) :
    Clear n (i :: a) ↔ n.class? = none ∧ Clear c a := by
  constructor
  · intro h
    refine ⟨h [] List.nil_prefix (List.cons_ne_nil i a).symm, fun b hb hne => ?_⟩
    have := h (i :: b) (List.cons_prefix_cons.mpr ⟨rfl, hb⟩) fun heq => hne (List.cons.inj heq).2
    rwa [Node.at?, hc] at this
  · rintro ⟨hn, h⟩ b hb hne
    cases b with
    | nil => exact hn
    | cons j b =>
      obtain ⟨rfl, hrest⟩ := List.cons_prefix_cons.mp hb
      rw [Node.at?, hc]
      exact h b hrest fun heq => hne (by rw [heq])

theorem hostAt_of_clear {n m : Node} {a : Address} (host : Option ClassShape)
    (ha : n.at? a = some m) (h : Clear n a) : hostAt host n a = host := by
  induction a generalizing n with
  | nil => rfl
  | cons i a ih =>
    obtain ⟨c, hc, ha⟩ := Option.bind_eq_some_iff.mp ha
    obtain ⟨hn, h⟩ := (clear_cons hc).mp h
    rw [hostAt, hc, Option.bind_some, hn, Option.none_or]
    exact ih ha h

/-- Of what is found in a tree, the part that the router is read from. -/
def read? (host : Option ClassShape) (m : Node) : Option Read :=
  if m.isThisMember "$router" then some ⟨m.span, host⟩ else none

theorem isThisMember_iff {n : Node} {name : String} :
    n.isThisMember name = true ↔ ∃ s t, n = .member s (.this t) name := by
  constructor
  · intro h
    unfold Node.isThisMember at h
    split at h
    · rename_i s t own
      exact ⟨s, t, by rw [beq_iff_eq.mp h]⟩
    · cases h
  · rintro ⟨s, t, rfl⟩
    exact beq_self_eq_true name

theorem class?_of_isThisMember {n : Node} {name : String} (h : n.isThisMember name = true) :
    n.class? = none := by
  obtain ⟨s, t, rfl⟩ := isThisMember_iff.mp h
  rfl

/-- Nothing else is found inside of a read. -/
theorem filterMap_read_of_isThisMember {n : Node} {name : String}
    (h : n.isThisMember name = true) {α : Type} (g : Address → Option α) (hg : g [0] = none) :
    n.addresses.filterMap g = (g []).toList := by
  obtain ⟨s, t, rfl⟩ := isThisMember_iff.mp h
  have hthis : (Node.this t).addresses = [[]] := by
    rw [Node.addresses_eq]
    rfl
  rw [Node.addresses_eq]
  simp only [Node.children, Node.numbered, List.zipIdx_cons, List.zipIdx_nil, List.flatMap_cons,
    List.flatMap_nil, List.append_nil, hthis, List.map_cons, List.map_nil]
  cases hnil : g [] <;> simp [hg, hnil]

/-- A walk that hands the innermost class down finds every read with the class it belongs to. -/
theorem gather_visitReads (n : Node) : ∀ host, Node.gather visitReads host n =
    n.addresses.filterMap fun a => (n.at? a).bind (read? (hostAt host n a)) := by
  induction n using Node.inductionOn with
  | step n ih =>
    intro host
    -- what the parts give, with the context that the visitor hands on
    have hparts : n.children.flatMap (Node.gather visitReads (n.class?.or host)) =
        (Node.numbered Node.addresses n.children).filterMap fun a =>
          (n.at? a).bind (read? (hostAt host n a)) := by
      rw [Node.filterMap_numbered (f := fun _ c a =>
        (c.at? a).bind (read? (hostAt (n.class?.or host) c a)))]
      · rw [Node.flatMap_zipIdx_fst (fun c : Node => c.addresses.filterMap fun a =>
          (c.at? a).bind (read? (hostAt (n.class?.or host) c a)))]
        exact List.flatMap_congr fun c hc => ih c hc _
      · intro i c hc a _
        rw [Node.at?, hostAt, hc]
        rfl
    rw [Node.gather_eq, visitReads]
    by_cases hread : n.isThisMember "$router" = true
    · rw [class?_of_isThisMember hread]
      simp only [hread, if_true]
      rw [filterMap_read_of_isThisMember hread]
      · simp [Node.at?, read?, hread, hostAt]
      · obtain ⟨s, t, rfl⟩ := isThisMember_iff.mp hread
        rfl
    · rw [Node.addresses_eq, List.filterMap_cons, ← hparts]
      simp only [Node.at?, Option.bind_some, read?, hread, Bool.false_eq_true, if_false]
      cases hclass : n.class? with
      | some c => rfl
      | none => simp

/-- A class has reads of its own where one stands inside of it with no class in between. -/
theorem gather_visitOwn_ne_nil (n : Node) : Node.gather visitOwn () n ≠ [] ↔
    ∃ b m, n.at? b = some m ∧ m.isThisMember "$router" = true ∧ Clear n b := by
  induction n using Node.inductionOn with
  | step n ih =>
    rw [Node.gather_eq, visitOwn]
    by_cases hread : n.isThisMember "$router" = true
    · rw [class?_of_isThisMember hread]
      simp only [Option.isSome_none, Bool.false_eq_true, if_false, hread, if_true]
      exact iff_of_true (List.cons_ne_nil _ _) ⟨[], n, rfl, hread, clear_nil n⟩
    · -- the read is in one of the parts
      have hparts : (∃ b m, n.at? b = some m ∧ m.isThisMember "$router" = true ∧ Clear n b) ↔
          n.class? = none ∧ ∃ c ∈ n.children, Node.gather visitOwn () c ≠ [] := by
        constructor
        · rintro ⟨b, m, hm, hread', hclear⟩
          cases b with
          | nil =>
            cases hm
            exact absurd hread' hread
          | cons i b =>
            obtain ⟨c, hc, hm⟩ := Option.bind_eq_some_iff.mp hm
            obtain ⟨hn, hclear⟩ := (clear_cons hc).mp hclear
            have hmem := List.mem_of_getElem? hc
            exact ⟨hn, c, hmem, (ih c hmem).mpr ⟨b, m, hm, hread', hclear⟩⟩
        · rintro ⟨hn, c, hmem, hc⟩
          obtain ⟨b, m, hm, hread', hclear⟩ := (ih c hmem).mp hc
          obtain ⟨i, hi⟩ := List.mem_iff_getElem?.mp hmem
          refine ⟨i :: b, m, ?_, hread', (clear_cons hi).mpr ⟨hn, hclear⟩⟩
          rw [Node.at?, hi]
          exact hm
      rw [hparts]
      cases hclass : n.class? with
      | some c => simp
      | none =>
        simp only [Option.isSome_none, Bool.false_eq_true, if_false, hread, List.nil_append,
          true_and, ne_eq, List.flatMap_eq_nil_iff, not_forall, exists_prop]

end Within

section Module

variable {p : Program}

theorem at?_append {a b : Address} {n : Node} (h : p.at? a = some n) :
    p.at? (a ++ b) = n.at? b := by
  have key : ∀ (a : Address) (m n : Node), m.at? a = some n → m.at? (a ++ b) = n.at? b := by
    intro a
    induction a with
    | nil =>
      intro m n h
      cases h
      rfl
    | cons i a ih =>
      intro m n h
      obtain ⟨c, hc, h⟩ := Option.bind_eq_some_iff.mp h
      rw [List.cons_append, Node.at?, hc]
      exact ih c n h
  cases a with
  | nil => cases h
  | cons i a =>
    obtain ⟨c, hc, h⟩ := Option.bind_eq_some_iff.mp h
    rw [List.cons_append, Program.at?, hc]
    exact key a c n h

/-- The innermost class above an address of a module. -/
def Program.hostAt (p : Program) : Address → Option ClassShape
  | [] => none
  | i :: a => (p.nodes[i]?).bind fun n => Router.hostAt none n a

theorem reads_eq (p : Program) :
    reads p = p.addresses.filterMap fun a => (p.at? a).bind (read? (Program.hostAt p a)) := by
  rw [reads, Program.gather, Program.addresses, Node.filterMap_numbered (f := fun _ c a =>
    (c.at? a).bind (read? (hostAt none c a)))]
  · rw [Node.flatMap_zipIdx_fst (fun c : Node => c.addresses.filterMap fun a =>
      (c.at? a).bind (read? (hostAt none c a)))]
    exact List.flatMap_congr fun c _ => gather_visitReads c none
  · intro i c hc a _
    rw [Program.at?, Program.hostAt, hc]
    rfl

theorem hostAt_append {n m d : Node} {b a : Address} {i : Nat} (host : Option ClassShape)
    (hm : n.at? b = some m) (hd : m.children[i]? = some d) :
    hostAt host n (b ++ i :: a) = hostAt (m.class?.or (hostAt host n b)) d a := by
  induction b generalizing n host with
  | nil =>
    cases hm
    show (m.children[i]?).bind _ = _
    rw [hd]
    rfl
  | cons j b ih =>
    obtain ⟨c, hc, hm⟩ := Option.bind_eq_some_iff.mp hm
    rw [List.cons_append, hostAt, hostAt, hc]
    exact ih _ hm

/-- An address below another one goes on with a part of the node there. -/
theorem exists_part {h a : Address} {n m : Node} (hn : p.at? h = some n) (hm : p.at? a = some m)
    (hpre : h <+: a) (hne : h ≠ a) :
    ∃ i b d, a = h ++ i :: b ∧ n.children[i]? = some d ∧ d.at? b = some m := by
  obtain ⟨rest, rfl⟩ := hpre
  cases rest with
  | nil => exact absurd (List.append_nil h).symm hne
  | cons i b =>
    rw [at?_append hn] at hm
    obtain ⟨d, hd, hm⟩ := Option.bind_eq_some_iff.mp hm
    exact ⟨i, b, d, rfl, hd, hm⟩

/-- The class at `h` hosts what stands below it with no class in between. -/
theorem hosts_iff {h : Address} {n d : Node} {i : Nat} {b : Address} (hn : p.at? h = some n)
    (hclass : n.class?.isSome) (hd : n.children[i]? = some d) :
    Hosts p h (h ++ i :: b) ↔ Clear d b := by
  have hbelow : ∀ b', p.at? (h ++ i :: b') = d.at? b' := by
    intro b'
    rw [at?_append hn, Node.at?, hd]
    rfl
  constructor
  · rintro ⟨-, hinner⟩ b' hb' hne
    by_contra hsome
    have habove : ClassAbove p (h ++ i :: b') (h ++ i :: b) := by
      refine ⟨?_, List.prefix_append_right_inj h |>.mpr (List.cons_prefix_cons.mpr ⟨rfl, hb'⟩), ?_⟩
      · rw [Program.classAt?, hbelow]
        exact Option.isSome_iff_ne_none.mpr hsome
      · intro heq
        exact hne (List.cons.inj (List.append_cancel_left heq)).2
    have hlength := (hinner _ habove).length_le
    rw [List.length_append, List.length_cons] at hlength
    omega
  · intro hclear
    have habove : ClassAbove p h (h ++ i :: b) := by
      refine ⟨?_, List.prefix_append _ _, ?_⟩
      · rw [Program.classAt?, hn]
        exact hclass
      · intro heq
        have := congrArg List.length heq
        rw [List.length_append, List.length_cons] at this
        omega
    refine ⟨habove, fun k hk => ?_⟩
    rcases List.prefix_or_prefix_of_prefix hk.2.1 habove.2.1 with hkh | ⟨rest, rfl⟩
    · exact hkh
    · -- a class further in would stand on the way
      cases rest with
      | nil => simp
      | cons j b' =>
        obtain ⟨rfl, hb'⟩ := List.cons_prefix_cons.mp
          ((List.prefix_append_right_inj h).mp hk.2.1)
        have hnone := hclear b' hb' fun heq => hk.2.2 (by rw [heq])
        have hsome := hk.1
        rw [Program.classAt?, hbelow, hnone] at hsome
        cases hsome

theorem exists_hosts {h a : Address} (habove : ClassAbove p h a) : ∃ k, Hosts p k a := by
  by_cases hinner : ∀ k, ClassAbove p k a → k <+: h
  · exact ⟨h, habove, hinner⟩
  · obtain ⟨k, hk⟩ := not_forall.mp hinner
    obtain ⟨hk, hkh⟩ := Classical.not_imp.mp hk
    have hhk := (List.prefix_or_prefix_of_prefix hk.2.1 habove.2.1).resolve_left hkh
    have hlonger : h.length < k.length :=
      Nat.lt_of_le_of_ne hhk.length_le fun heq => hkh (hhk.eq_of_length heq ▸ List.prefix_rfl)
    have hbound := hk.2.1.length_le
    exact exists_hosts hk
termination_by a.length - h.length

theorem Program.hostAt_of_hosts {h a : Address} {m : Node} (hm : p.at? a = some m)
    (hosts : Hosts p h a) : Program.hostAt p a = p.classAt? h := by
  obtain ⟨c, hc⟩ := Option.isSome_iff_exists.mp hosts.1.1
  obtain ⟨n, hn, hclass⟩ := Option.bind_eq_some_iff.mp hc
  obtain ⟨i, b, d, rfl, hd, hb⟩ := exists_part hn hm hosts.1.2.1 hosts.1.2.2
  have hclear := (hosts_iff hn (by rw [hclass]; rfl) hd).mp hosts
  rw [hc]
  cases h with
  | nil => cases hn
  | cons j h =>
    obtain ⟨n₀, hn₀, hn⟩ := Option.bind_eq_some_iff.mp hn
    rw [List.cons_append, Program.hostAt, hn₀, Option.bind_some, hostAt_append none hn hd, hclass,
      Option.some_or]
    exact hostAt_of_clear _ hb hclear

theorem Program.hostAt_of_orphan {a : Address} {m : Node} (hm : p.at? a = some m)
    (horphan : ∀ h, ¬ ClassAbove p h a) : Program.hostAt p a = none := by
  cases a with
  | nil => rfl
  | cons j a =>
    obtain ⟨n₀, hn₀, hm⟩ := Option.bind_eq_some_iff.mp hm
    rw [Program.hostAt, hn₀, Option.bind_some]
    refine hostAt_of_clear none hm fun b hb hne => ?_
    by_contra hsome
    refine horphan (j :: b)
      ⟨?_, List.cons_prefix_cons.mpr ⟨rfl, hb⟩, fun heq => hne (List.cons.inj heq).2⟩
    rw [Program.classAt?, Program.at?, hn₀]
    exact Option.isSome_iff_ne_none.mpr hsome

theorem isSome_hostAt_iff {a : Address} {m : Node} (hm : p.at? a = some m) :
    (Program.hostAt p a).isSome ↔ ∃ h, ClassAbove p h a := by
  by_cases habove : ∃ h, ClassAbove p h a
  · refine iff_of_true ?_ habove
    obtain ⟨h, habove⟩ := habove
    obtain ⟨k, hosts⟩ := exists_hosts habove
    rw [Program.hostAt_of_hosts hm hosts]
    exact hosts.1.1
  · rw [Program.hostAt_of_orphan hm (not_exists.mp habove)]
    exact iff_of_false (by simp) habove

theorem readAt_iff {a : Address} :
    ReadAt p a ↔ ∃ m, p.at? a = some m ∧ m.isThisMember "$router" = true := by
  constructor
  · rintro ⟨s, t, h⟩
    exact ⟨_, h, isThisMember_iff.mpr ⟨s, t, rfl⟩⟩
  · rintro ⟨m, hm, hread⟩
    obtain ⟨s, t, rfl⟩ := isThisMember_iff.mp hread
    exact ⟨s, t, hm⟩

/-- What `readers` takes of a node. -/
def reader? (n : Node) : Option ClassShape := do
  let c ← n.class?
  guard !(n.children.flatMap (Node.gather visitOwn ())).isEmpty
  return c

theorem reader?_eq_some_iff {n : Node} {c : ClassShape} : reader? n = some c ↔
    n.class? = some c ∧ ∃ d ∈ n.children, Node.gather visitOwn () d ≠ [] := by
  rw [reader?]
  cases hclass : n.class? with
  | none => simp
  | some c' =>
    by_cases hown : n.children.flatMap (Node.gather visitOwn ()) = []
    · have hnone : ¬ ∃ d ∈ n.children, Node.gather visitOwn () d ≠ [] := by
        rintro ⟨d, hd, hne⟩
        exact hne (List.flatMap_eq_nil_iff.mp hown d hd)
      simp [hown, hnone]
    · have hsome : ∃ d ∈ n.children, Node.gather visitOwn () d ≠ [] := by
        by_contra hnone
        refine hown (List.flatMap_eq_nil_iff.mpr fun d hd => ?_)
        by_contra hne
        exact hnone ⟨d, hd, hne⟩
      have hempty : (n.children.flatMap (Node.gather visitOwn ())).isEmpty = false := by
        simpa using hown
      simp [hempty, hsome]

/-- The classes that get a field are those that host a read. -/
theorem reader?_at?_eq_some_iff {h : Address} {c : ClassShape} :
    (p.at? h).bind reader? = some c ↔
      p.classAt? h = some c ∧ ∃ a, ReadAt p a ∧ Hosts p h a := by
  constructor
  · intro hreader
    obtain ⟨n, hn, hreader⟩ := Option.bind_eq_some_iff.mp hreader
    obtain ⟨hclass, d, hd, hown⟩ := reader?_eq_some_iff.mp hreader
    obtain ⟨b, m, hm, hread, hclear⟩ := (gather_visitOwn_ne_nil d).mp hown
    obtain ⟨i, hi⟩ := List.mem_iff_getElem?.mp hd
    have hat : p.at? (h ++ i :: b) = some m := by
      rw [at?_append hn, Node.at?, hi]
      exact hm
    refine ⟨by rw [Program.classAt?, hn]; exact hclass, h ++ i :: b, ?_, ?_⟩
    · exact readAt_iff.mpr ⟨m, hat, hread⟩
    · exact (hosts_iff hn (by rw [hclass]; rfl) hi).mpr hclear
  · rintro ⟨hc, a, hread, hosts⟩
    obtain ⟨n, hn, hclass⟩ := Option.bind_eq_some_iff.mp hc
    obtain ⟨m, hm, hmember⟩ := readAt_iff.mp hread
    obtain ⟨i, b, d, rfl, hd, hb⟩ := exists_part hn hm hosts.1.2.1 hosts.1.2.2
    have hclear := (hosts_iff hn (by rw [hclass]; rfl) hd).mp hosts
    rw [hn, Option.bind_some, reader?_eq_some_iff]
    exact ⟨hclass, d, List.mem_of_getElem? hd,
      (gather_visitOwn_ne_nil d).mpr ⟨b, m, hb, hmember, hclear⟩⟩

theorem readers_perm (p : Program) :
    (readers p).Perm (p.addresses.filterMap fun h => (p.at? h).bind reader?) := by
  have hperm := p.postorder_perm.filterMap reader?
  rw [List.filterMap_filterMap] at hperm
  exact hperm

end Module

section Patch

/-- The class has a field or a method of this name. -/
def HasMember (c : ClassShape) (name : String) : Prop :=
  ∃ m ∈ c.members, (∃ s head init, m = .field s (some name) head init) ∨
    ∃ s key parts, m = .method s (some name) key parts

theorem has_iff {c : ClassShape} {name : String} : c.has name = true ↔ HasMember c name := by
  rw [ClassShape.has, List.any_eq_true]
  refine exists_congr fun m => and_congr_right fun _ => ?_
  constructor
  · intro h
    split at h
    · exact .inl ⟨_, _, _, by rw [beq_iff_eq.mp h]⟩
    · exact .inr ⟨_, _, _, by rw [beq_iff_eq.mp h]⟩
    · cases h
  · rintro (⟨s, head, init, rfl⟩ | ⟨s, key, parts, rfl⟩)
    · exact beq_self_eq_true _
    · exact beq_self_eq_true _

/-- The place for a new field of a class: the start of its first member, or the place behind the
brace that opens a body without members. -/
def Heads (c : ClassShape) (place : Nat) : Prop :=
  (∃ first rest, c.members = first :: rest ∧ place = first.span.start) ∨
    c.members = [] ∧ place = c.body.start + 1

/-- The edit adds the field to a class: ahead of the members of the class, and with nothing but
blanks and perhaps a `;` around it. -/
def AddsField (c : ClassShape) (e : Edit) : Prop :=
  (∃ place, Heads c place ∧ e.span = ⟨place, place⟩) ∧ ∃ front mark back : Text,
    e.text = front ++ "$instance = getCurrentInstance()".toList ++ mark ++ back ∧
      front.isBlank = true ∧ (mark = [] ∨ mark = [';']) ∧ back.isBlank = true

theorem heads_anchor (c : ClassShape) : Heads c (anchor c) := by
  rw [anchor]
  cases hmembers : c.members with
  | nil => exact .inr ⟨hmembers, rfl⟩
  | cons first rest => exact .inl ⟨first, rest, hmembers, rfl⟩

theorem isBlank_indentAt (source : Text) (offset : Nat) :
    (source.indentAt offset).isBlank = true := by
  rw [Text.isBlank, Text.indentAt, List.all_eq_true]
  intro c hc
  exact isWhite_of_isIndent (List.all_eq_true.mp List.all_takeWhile c hc)

theorem addsField_addField (source : Text) (style : Style) (c : ClassShape) :
    AddsField c (addField source style c) := by
  have hindent := isBlank_indentAt source (anchor c)
  rw [Text.isBlank] at hindent
  refine ⟨⟨anchor c, heads_anchor c, rfl⟩, ?_⟩
  rw [addField, Edit.insert]
  dsimp only
  generalize hm : (if Option.any _ _ = true then [';'] else style.terminator) = mark
  have hmark : mark = [] ∨ mark = [';'] := by
    rw [← hm, Style.terminator]
    split
    · exact .inr rfl
    · cases style.semicolons
      · exact .inl rfl
      · exact .inr rfl
  split
  · refine ⟨'\n' :: (source.indentAt (anchor c) ++ "  ".toList), mark,
      '\n' :: source.indentAt (anchor c), ?_, ?_, hmark, ?_⟩
    · simp only [List.cons_append, List.append_assoc]
      rfl
    · rw [Text.isBlank, List.all_cons, List.all_append, hindent]
      rfl
    · rw [Text.isBlank, List.all_cons, hindent]
      rfl
  · refine ⟨[], mark, '\n' :: source.indentAt (anchor c), ?_, rfl, hmark, ?_⟩
    · simp only [List.nil_append, List.append_assoc]
      rfl
    · rw [Text.isBlank, List.all_cons, hindent]
      rfl

variable {p : Program}

/-- The read at an address, with the innermost class above it. -/
def readAt? (p : Program) (a : Address) : Option Read :=
  (p.at? a).bind (read? (Program.hostAt p a))

theorem readAt?_eq_some_iff {a : Address} {r : Read} : readAt? p a = some r ↔
    ∃ m, p.at? a = some m ∧ m.isThisMember "$router" = true ∧ r = ⟨m.span, Program.hostAt p a⟩ := by
  rw [readAt?, Option.bind_eq_some_iff]
  refine exists_congr fun m => and_congr_right fun _ => ?_
  rw [read?, Option.ite_none_right_eq_some, Option.some.injEq]
  exact and_congr_right fun _ => eq_comm

theorem isSome_filter_readAt? {a : Address} {q : Read → Bool} :
    ((readAt? p a).filter q).isSome ↔ ∃ r, readAt? p a = some r ∧ q r = true := by
  cases readAt? p a <;> simp [Option.filter]

theorem hosted_iff (a : Address) : ((readAt? p a).filter fun r => r.host.isSome).isSome ↔
    ReadAt p a ∧ ∃ h, ClassAbove p h a := by
  rw [isSome_filter_readAt?]
  constructor
  · rintro ⟨r, hr, hhost⟩
    obtain ⟨m, hm, hread, rfl⟩ := readAt?_eq_some_iff.mp hr
    exact ⟨readAt_iff.mpr ⟨m, hm, hread⟩, (isSome_hostAt_iff hm).mp hhost⟩
  · rintro ⟨hread, habove⟩
    obtain ⟨m, hm, hread⟩ := readAt_iff.mp hread
    exact ⟨_, readAt?_eq_some_iff.mpr ⟨m, hm, hread, rfl⟩, (isSome_hostAt_iff hm).mpr habove⟩

theorem orphan_iff (a : Address) : ((readAt? p a).filter fun r => r.host.isNone).isSome ↔
    ReadAt p a ∧ ¬ ∃ h, ClassAbove p h a := by
  rw [isSome_filter_readAt?]
  constructor
  · rintro ⟨r, hr, hhost⟩
    obtain ⟨m, hm, hread, rfl⟩ := readAt?_eq_some_iff.mp hr
    refine ⟨readAt_iff.mpr ⟨m, hm, hread⟩, fun habove => ?_⟩
    rw [← isSome_hostAt_iff hm, Option.isSome_iff_ne_none] at habove
    exact habove (Option.isNone_iff_eq_none.mp hhost)
  · rintro ⟨hread, horphan⟩
    obtain ⟨m, hm, hread⟩ := readAt_iff.mp hread
    refine ⟨_, readAt?_eq_some_iff.mpr ⟨m, hm, hread, rfl⟩, ?_⟩
    rw [← isSome_hostAt_iff hm] at horphan
    exact Option.isNone_iff_eq_none.mpr (Option.not_isSome_iff_eq_none.mp horphan)

/-- The class at an address, if it is to get a field. -/
def needy? (p : Program) (h : Address) : Option ClassShape :=
  ((p.at? h).bind reader?).filter fun c => !c.has instanceField

theorem needy?_eq_some_iff {h : Address} {c : ClassShape} : needy? p h = some c ↔
    p.classAt? h = some c ∧ (∃ a, ReadAt p a ∧ Hosts p h a) ∧ ¬ HasMember c "$instance" := by
  rw [needy?, Option.filter_eq_some_iff, reader?_at?_eq_some_iff, and_assoc, ← has_iff,
    Bool.not_eq_true', Bool.not_eq_true]
  rfl

theorem isSome_needy?_iff (h : Address) : (needy? p h).isSome ↔
    (∃ a, ReadAt p a ∧ Hosts p h a) ∧ ∃ c, p.classAt? h = some c ∧ ¬ HasMember c "$instance" := by
  rw [Option.isSome_iff_exists]
  constructor
  · rintro ⟨c, hc⟩
    obtain ⟨hclass, hhosts, hlacks⟩ := needy?_eq_some_iff.mp hc
    exact ⟨hhosts, c, hclass, hlacks⟩
  · rintro ⟨hhosts, c, hclass, hlacks⟩
    exact ⟨c, needy?_eq_some_iff.mpr ⟨hclass, hhosts, hlacks⟩⟩

theorem filter_reads (p : Program) (q : Read → Bool) :
    (reads p).filter q = p.addresses.filterMap fun a => (readAt? p a).filter q := by
  rw [reads_eq, List.filter_filterMap]
  rfl

/-- The classes that get a field, with their addresses. -/
theorem exists_hosts_of_fields (p : Program) (add : ClassShape → Edit) :
    ∃ hosts : List Address,
      hosts.Perm (p.addresses.filter fun h => (needy? p h).isSome) ∧
      List.Forall₂ (fun h e => ∃ c, needy? p h = some c ∧ e = add c) hosts
        (((readers p).filter fun c => !c.has instanceField).map add) := by
  have hperm : (((readers p).filter fun c => !c.has instanceField).map add).Perm
      ((p.addresses.filterMap (needy? p)).map add) := by
    refine List.Perm.map add ?_
    have := (readers_perm p).filter fun c => !c.has instanceField
    rwa [List.filter_filterMap] at this
  have hzip : List.Forall₂ (fun h e => ∃ c, needy? p h = some c ∧ e = add c)
      (p.addresses.filter fun h => (needy? p h).isSome)
      ((p.addresses.filterMap (needy? p)).map add) := by
    rw [List.forall₂_map_right_iff]
    exact (forall₂_filterMap (needy? p) p.addresses).imp fun h c hc => ⟨c, hc, rfl⟩
  have hcomp : Relation.Comp (List.Forall₂ fun h e => ∃ c, needy? p h = some c ∧ e = add c)
      List.Perm (p.addresses.filter fun h => (needy? p h).isSome)
      (((readers p).filter fun c => !c.has instanceField).map add) := ⟨_, hzip, hperm.symm⟩
  rw [List.forall₂_comp_perm_eq_perm_comp_forall₂] at hcomp
  obtain ⟨hosts, hhosts, hzip⟩ := hcomp
  exact ⟨hosts, hhosts.symm, hzip⟩

/-- The scan of the pass is exact, whatever the tree: it replaces every `this.$router` below a class
once, notes how many have no class above them, and adds one field to each class that hosts a read
and has no member of that name, ahead of the members of that class, and to no other. -/
theorem patch_exact (script : Script) :
    ∃ (hosted orphans hosts : List Address) (replacements fields : List Edit),
      Lists hosted (fun a => ReadAt script.program a ∧ ∃ h, ClassAbove script.program h a) ∧
      Lists orphans (fun a => ReadAt script.program a ∧ ¬ ∃ h, ClassAbove script.program h a) ∧
      Lists hosts (fun h => (∃ a ∈ hosted, Hosts script.program h a) ∧
        ∃ c, script.program.classAt? h = some c ∧ ¬ HasMember c "$instance") ∧
      List.Forall₂ (fun a e => ∃ n, script.program.at? a = some n ∧
        e = .replace n.span "this.$instance.router".toList) hosted replacements ∧
      List.Forall₂ (fun h e => ∃ c, script.program.classAt? h = some c ∧ AddsField c e)
        hosts fields ∧
      (patch script).edits = (if hosted = [] then [] else fields ++ replacements ++
        (script.ensureImport? apiPackage instanceFactory).toList) ∧
      (patch script).notices = if hosted = [] then [] else
        (if 0 < orphans.length then
          [toString orphans.length ++
            " `this.$router` use(s) outside a class component left unchanged"] else []) ++
        (if 0 < scopeReads script.program then
          [toString (scopeReads script.program) ++
            " `this.$scope` use(s) need manual migration"] else []) := by
  have hat : ∀ a, ReadAt script.program a → (script.program.at? a).isSome := by
    rintro a ⟨s, t, h⟩
    rw [h]
    rfl
  have hhosted := lists_isSome (p := script.program) hosted_iff fun a h => hat a h.1
  have horphans := lists_isSome (p := script.program) orphan_iff fun a h => hat a h.1
  have hneedy := lists_isSome (p := script.program) isSome_needy?_iff fun h => by
    rintro ⟨-, c, hc, -⟩
    obtain ⟨n, hn, -⟩ := Option.bind_eq_some_iff.mp hc
    rw [hn]
    rfl
  obtain ⟨hosts, hperm, hfields⟩ := exists_hosts_of_fields script.program
    (addField script.source script.style)
  have hreplaced := forall₂_filterMap
    (fun a => (readAt? script.program a).filter fun r => r.host.isSome) script.program.addresses
  rw [← filter_reads] at hreplaced
  have hcount := (forall₂_filterMap (fun a => (readAt? script.program a).filter fun r =>
    r.host.isNone) script.program.addresses).length_eq
  rw [← filter_reads] at hcount
  generalize (script.program.addresses.filter fun a =>
    ((readAt? script.program a).filter fun r => r.host.isSome).isSome) = hosted at *
  have hempty : ((reads script.program).filter fun r => r.host.isSome).isEmpty = true ↔
      hosted = [] := by
    rw [List.isEmpty_iff, ← List.length_eq_zero_iff, ← hreplaced.length_eq,
      List.length_eq_zero_iff]
  replace hfields := hfields.imp fun h e he =>
    show ∃ c, script.program.classAt? h = some c ∧ AddsField c e by
      obtain ⟨c, hc, rfl⟩ := he
      exact ⟨c, (needy?_eq_some_iff.mp hc).1, addsField_addField _ _ _⟩
  refine ⟨hosted, _, hosts, ((reads script.program).filter fun r => r.host.isSome).map fun r =>
      Edit.replace r.span "this.$instance.router".toList, _, hhosted, horphans, ⟨?_, fun h => ?_⟩,
      ?_, hfields, ?_, ?_⟩
  · exact hperm.nodup_iff.mpr hneedy.1
  · rw [hperm.mem_iff, hneedy.2]
    refine and_congr_left fun _ => exists_congr fun a => and_congr_left fun hosts => ?_
    rw [hhosted.2]
    exact (and_iff_left ⟨h, hosts.1⟩).symm
  · rw [List.forall₂_map_right_iff]
    refine hreplaced.imp fun a r hr => ?_
    obtain ⟨m, hm, -, rfl⟩ := readAt?_eq_some_iff.mp (Option.filter_eq_some_iff.mp hr).1
    exact ⟨m, hm, rfl⟩
  · rw [patch]
    dsimp only
    by_cases hnone : hosted = []
    · rw [if_pos (hempty.mpr hnone), if_pos hnone]
      rfl
    · rw [if_neg (fun h => hnone (hempty.mp h)), if_neg hnone]
  · rw [patch]
    dsimp only
    by_cases hnone : hosted = []
    · rw [if_pos (hempty.mpr hnone), if_pos hnone]
      rfl
    · rw [if_neg (fun h => hnone (hempty.mp h)), if_neg hnone, hcount]

end Patch

end Router

end Codemod
