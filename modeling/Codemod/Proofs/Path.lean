import Codemod.Path

/-!
# Codemod.Proofs.Path

The pieces that a path is made of.

A path is followed piece by piece. Empty pieces and lone dots lead nowhere (`Text.IsIdle`), the
other ones are its steps.

* `steps_eq_of_same`: paths with the same components have the same steps.
* `EndsIn.join`: a path that is joined on ends as before.
* `withFileName_parts`: another name in the place of the last one changes the last piece only,
  up to idle pieces in front of it.
-/

namespace Codemod

namespace Text

variable {sep : Char}

theorem splitAt_of_not_mem {s : Text} (h : sep ∉ s) : splitAt sep s = [s] := by
  induction s with
  | nil => rfl
  | cons c cs ih =>
    rw [List.mem_cons, not_or] at h
    rw [splitAt, if_neg (Ne.symm h.1), ih h.2]

theorem splitAt_ne_nil (sep : Char) (s : Text) : splitAt sep s ≠ [] := by
  cases s with
  | nil => simp [splitAt]
  | cons c cs =>
    rw [splitAt]
    split
    · simp
    · split <;> simp

theorem splitAt_append_sep (s t : Text) :
    splitAt sep (s ++ sep :: t) = splitAt sep s ++ splitAt sep t := by
  induction s with
  | nil => simp [splitAt]
  | cons c cs ih =>
    by_cases h : c = sep
    · simp [splitAt, h, ih]
    · obtain ⟨piece, pieces, hp⟩ := List.exists_cons_of_ne_nil (splitAt_ne_nil sep cs)
      simp [splitAt, h, ih, hp]

theorem splitAt_append {s t : Text} (ht : sep ∉ t) :
    ∃ front last, splitAt sep s = front ++ [last] ∧
      splitAt sep (s ++ t) = front ++ [last ++ t] := by
  induction s with
  | nil => exact ⟨[], [], rfl, by simp [splitAt_of_not_mem ht]⟩
  | cons c cs ih =>
    obtain ⟨front, last, hs, hst⟩ := ih
    by_cases h : c = sep
    · exact ⟨[] :: front, last, by simp [splitAt, h, hs], by simp [splitAt, h, hst]⟩
    · cases front with
      | nil => exact ⟨[], c :: last, by simp [splitAt, h, hs], by simp [splitAt, h, hst]⟩
      | cons p front =>
        exact ⟨(c :: p) :: front, last, by simp [splitAt, h, hs], by simp [splitAt, h, hst]⟩

theorem not_mem_of_mem_splitAt {s piece : Text} (h : piece ∈ splitAt sep s) :
    sep ∉ piece := by
  induction s generalizing piece with
  | nil =>
    rw [splitAt, List.mem_singleton] at h
    simp [h]
  | cons c cs ih =>
    rw [splitAt] at h
    split at h
    · rcases List.mem_cons.mp h with rfl | h
      · exact List.not_mem_nil
      · exact ih h
    · rename_i hc
      split at h
      · rename_i hnil
        exact absurd hnil (splitAt_ne_nil sep cs)
      · rename_i first rest hsplit
        rcases List.mem_cons.mp h with rfl | h
        · have := ih (hsplit ▸ List.mem_cons_self)
          simp [this, Ne.symm hc]
        · exact ih (hsplit ▸ List.mem_cons_of_mem _ h)

theorem eq_of_splitAt_eq {s last : Text} {front : List Text}
    (h : splitAt sep s = front ++ [last]) :
    front = [] ∧ s = last ∨ ∃ t, s = t ++ sep :: last ∧ splitAt sep t = front := by
  by_cases hmem : sep ∈ s
  · obtain ⟨back, rest, hrev, hback⟩ := List.eq_append_cons_of_mem (List.mem_reverse.mpr hmem)
    have hs : s = rest.reverse ++ sep :: back.reverse := by
      have := congrArg List.reverse hrev
      simpa using this
    have hlast : splitAt sep back.reverse = [back.reverse] :=
      splitAt_of_not_mem (by simpa using hback)
    rw [hs, splitAt_append_sep, hlast] at h
    obtain ⟨hfront, hlast⟩ := List.append_inj' h rfl
    cases hlast
    exact .inr ⟨rest.reverse, hs, hfront⟩
  · rw [splitAt_of_not_mem hmem] at h
    have h' : [] ++ [s] = front ++ [last] := h
    obtain ⟨hfront, hlast⟩ := List.append_inj' h' rfl
    cases hlast
    exact .inl ⟨hfront.symm, rfl⟩

/-- The pieces in front of the place that a text, read backwards, has come to. -/
def piecesBack : Text → List Text
  | '/' :: cs => splitAt '/' cs.reverse
  | cs => splitAt '/' cs.reverse

theorem piecesBack_slash (cs : Text) : piecesBack ('/' :: cs) = splitAt '/' cs.reverse :=
  rfl

theorem piecesBack_of_head {cs : Text} (h : cs.head? ≠ some '/') :
    piecesBack cs = splitAt '/' cs.reverse := by
  unfold piecesBack
  split
  · simp at h
  · rfl

/-- A piece that leads nowhere. -/
def IsIdle (piece : Text) : Prop :=
  piece = [] ∨ piece = ['.']

instance (piece : Text) : Decidable (IsIdle piece) :=
  inferInstanceAs (Decidable (_ ∨ _))

/-- A piece that names something in a directory. -/
structure IsName (piece : Text) : Prop where
  not_idle : ¬ IsIdle piece
  not_parent : piece ≠ ['.', '.']
  no_slash : '/' ∉ piece

instance (piece : Text) : Decidable (IsName piece) :=
  decidable_of_iff (¬ IsIdle piece ∧ piece ≠ ['.', '.'] ∧ '/' ∉ piece)
    ⟨fun ⟨h₁, h₂, h₃⟩ => ⟨h₁, h₂, h₃⟩, fun ⟨h₁, h₂, h₃⟩ => ⟨h₁, h₂, h₃⟩⟩

theorem IsName.ne_nil {piece : Text} (h : IsName piece) : piece ≠ [] :=
  fun hnil => h.not_idle (.inl hnil)

theorem IsName.of_mem {piece : Text} {c : Char} (hc : c ∈ piece) (hdot : c ≠ '.')
    (hslash : '/' ∉ piece) : IsName piece where
  not_idle := by
    rintro (rfl | rfl)
    · exact List.not_mem_nil hc
    · exact hdot (List.mem_singleton.mp hc)
  not_parent := by
    rintro rfl
    simp [hdot] at hc
  no_slash := hslash

end Text

namespace Path

/-- The pieces of a path between its slashes, all of them. -/
def parts (p : Path) : List Text :=
  Text.splitAt '/' p.text.toList

/-- The pieces that lead somewhere. -/
def steps (p : Path) : List Text :=
  p.parts.filter fun piece => !decide (Text.IsIdle piece)

/-- The component that a step stands for. -/
def Component.ofStep (piece : Text) : Component :=
  if piece == ['.', '.'] then .parent else .name (String.ofList piece)

theorem Component.ofStep_injective {a b : Text} (h : ofStep a = ofStep b) : a = b := by
  unfold ofStep at h
  split at h <;> split at h
  · simp_all
  · cases h
  · cases h
  · exact String.ofList_injective (Component.name.inj h)

theorem components_eq (p : Path) :
    p.components = if p.isAbsolute then .root :: p.steps.map .ofStep
      else if p.pieces.head? == some ['.'] && (p.text.toList.head? == some '.') then
        .current :: p.steps.map .ofStep
      else p.steps.map .ofStep := by
  have h : (p.pieces.filter (· != ['.'])) = p.steps := by
    rw [pieces, steps, parts, List.filter_filter]
    congr 1
    funext piece
    rw [Bool.eq_iff_iff]
    simp only [Bool.and_eq_true, Bool.not_eq_true', bne_iff_ne, decide_eq_false_iff_not,
      List.isEmpty_eq_false_iff]
    rw [Text.IsIdle, not_or, and_comm]
  rw [components]
  simp only [h]
  rfl

theorem map_ofStep_injective {as bs : List Text}
    (h : as.map Component.ofStep = bs.map Component.ofStep) : as = bs :=
  (List.map_inj_right fun _ _ => Component.ofStep_injective).mp h

/-- Whether a component comes from a step. -/
def Component.isStep : Component → Bool
  | .root | .current => false
  | .parent | .name _ => true

theorem Component.isStep_ofStep (piece : Text) : (ofStep piece).isStep = true := by
  unfold ofStep
  split <;> rfl

theorem filter_components (p : Path) :
    p.components.filter Component.isStep = p.steps.map .ofStep := by
  have h : (p.steps.map Component.ofStep).filter Component.isStep = p.steps.map .ofStep := by
    rw [List.filter_eq_self]
    intro c hc
    obtain ⟨piece, -, rfl⟩ := List.mem_map.mp hc
    exact Component.isStep_ofStep piece
  rw [components_eq]
  split
  · exact h
  · split <;> exact h

theorem isAbsolute_eq_contains (p : Path) : p.isAbsolute = p.components.contains .root := by
  have h : (p.steps.map Component.ofStep).contains .root = false := by
    rw [List.contains_eq_mem, decide_eq_false_iff_not]
    intro hmem
    obtain ⟨piece, -, hpiece⟩ := List.mem_map.mp hmem
    have := Component.isStep_ofStep piece
    rw [hpiece] at this
    cases this
  rw [components_eq]
  split
  · rename_i habs
    rw [habs]
    rfl
  · rename_i habs
    rw [Bool.not_eq_true] at habs
    rw [habs]
    split <;> simpa using h.symm

theorem same_refl (p : Path) : p.same p = true := by
  rw [same, beq_self_eq_true]

theorem same_comm (p q : Path) : p.same q = q.same p := by
  rw [same, same, Bool.eq_iff_iff, beq_iff_eq, beq_iff_eq]
  exact ⟨Eq.symm, Eq.symm⟩

theorem same_trans {p q r : Path} (h : p.same q = true) (h' : q.same r = true) :
    p.same r = true := by
  rw [same, beq_iff_eq] at h h' ⊢
  exact h.trans h'

theorem steps_eq_of_same {p q : Path} (h : p.same q = true) :
    p.isAbsolute = q.isAbsolute ∧ p.steps = q.steps := by
  rw [same, beq_iff_eq] at h
  constructor
  · rw [isAbsolute_eq_contains, h, isAbsolute_eq_contains]
  · apply map_ofStep_injective
    rw [← filter_components, h, filter_components]

/-- The last piece of the path is this name. -/
def EndsIn (p : Path) (name : String) : Prop :=
  Text.IsName name.toList ∧ ∃ front, p.parts = front ++ [name.toList]

theorem fileName?_of_endsIn {p : Path} {name : String} (h : p.EndsIn name) :
    p.fileName? = some name := by
  obtain ⟨hname, front, hparts⟩ := h
  have hsteps : p.steps = front.filter (fun piece => !decide (Text.IsIdle piece)) ++
      [name.toList] := by
    rw [steps, hparts, List.filter_append]
    simp [hname.not_idle]
  have hlast (cs : List Component) :
      (cs ++ p.steps.map Component.ofStep).getLast? = some (.name name) := by
    rw [hsteps, List.map_append, ← List.append_assoc]
    simp [Component.ofStep, hname.not_parent]
  have hcomponents : p.components.getLast? = some (.name name) := by
    rw [components_eq]
    split
    · exact hlast [.root]
    · split
      · exact hlast [.current]
      · exact hlast []
  rw [fileName?, hcomponents]

theorem EndsIn.unique {p : Path} {name name' : String} (h : p.EndsIn name) (h' : p.EndsIn name') :
    name = name' := by
  have hsome := (fileName?_of_endsIn h).symm.trans (fileName?_of_endsIn h')
  exact Option.some.inj hsome

theorem EndsIn.getLast? {p : Path} {name : String} (h : p.EndsIn name) :
    p.text.toList.getLast? = name.toList.getLast? := by
  obtain ⟨hname, front, hparts⟩ := h
  rcases Text.eq_of_splitAt_eq hparts with ⟨-, htext⟩ | ⟨t, htext, -⟩
  · rw [htext]
  · obtain ⟨c, cs, hcs⟩ := List.exists_cons_of_ne_nil hname.ne_nil
    rw [htext, hcs, List.getLast?_append, List.getLast?_cons_cons, List.getLast?_cons,
      Option.some_or]

/-- What is dropped from the end of a text are pieces that lead nowhere. -/
theorem trimBack_pieces (n : Nat) (r : Text) (hr : r ≠ []) :
    trimBack n r ≠ [] ∧ (trimBack n r).getLast? = r.getLast? ∧
      ∃ junk, (∀ piece ∈ junk, Text.IsIdle piece) ∧
        Text.piecesBack r = Text.piecesBack (trimBack n r) ++ junk := by
  induction n, r using trimBack.induct with
  | case1 cs => exact ⟨hr, rfl, [], nofun, by simp [trimBack]⟩
  | case2 n cs ih =>
    rw [trimBack]
    by_cases hcs : cs = []
    · subst hcs
      simpa using ih
    · have hempty : cs.isEmpty = false := by simpa using hcs
      simp only [hempty, Bool.false_eq_true, if_false] at ih ⊢
      obtain ⟨hne, hlast, junk, hjunk, hpieces⟩ := ih hcs
      refine ⟨hne, ?_, ?_⟩
      · rw [hlast, List.getLast?_cons_of_ne_nil hcs]
      · by_cases hhead : cs.head? = some '/'
        · obtain ⟨cs', rfl⟩ : ∃ cs', cs = '/' :: cs' := by
            cases cs with
            | nil => exact absurd rfl hcs
            | cons c cs' =>
              simp only [List.head?_cons, Option.some.injEq] at hhead
              exact ⟨cs', by rw [hhead]⟩
          refine ⟨junk ++ [[]], ?_, ?_⟩
          · intro piece hpiece
            rcases List.mem_append.mp hpiece with h | h
            · exact hjunk piece h
            · exact .inl (List.mem_singleton.mp h)
          · rw [Text.piecesBack_slash, List.reverse_cons, Text.splitAt_append_sep,
              ← Text.piecesBack_slash, hpieces, List.append_assoc]
            rfl
        · refine ⟨junk, hjunk, ?_⟩
          rw [Text.piecesBack_slash, ← Text.piecesBack_of_head hhead, hpieces]
  | case3 n cs ih =>
    rw [trimBack]
    obtain ⟨hne, hlast, junk, hjunk, hpieces⟩ := ih (by simp)
    refine ⟨hne, ?_, junk ++ [['.']], ?_, ?_⟩
    · rw [hlast, List.getLast?_cons_cons]
    · intro piece hpiece
      rcases List.mem_append.mp hpiece with h | h
      · exact hjunk piece h
      · exact .inr (List.mem_singleton.mp h)
    · rw [Text.piecesBack_of_head (by simp), List.reverse_cons, List.reverse_cons,
        List.append_assoc, List.singleton_append, Text.splitAt_append_sep,
        ← Text.piecesBack_slash, hpieces, List.append_assoc]
      rfl
  | case4 n cs hzero hslash hdot =>
    have h : trimBack n cs = cs := by
      unfold trimBack
      split
      · rfl
      · exact absurd rfl (hslash _ _ rfl)
      · exact absurd rfl (hdot _ _ rfl)
      · rfl
    rw [h]
    exact ⟨hr, rfl, [], nofun, by simp⟩

theorem isEmpty_text {p : Path} (h : p.text.toList ≠ []) : p.text.isEmpty = false := by
  rw [Bool.eq_false_iff]
  intro hempty
  rw [String.isEmpty_iff] at hempty
  rw [hempty] at h
  exact h rfl

/-- A path that ends in a slash is open for a name; any other one gets a slash first. -/
theorem toList_join {p : Path} {name : String} (hp : p.text.toList ≠ [])
    (hrel : (Path.mk name).isAbsolute = false) :
    (∃ t, p.text.toList = t ++ ['/'] ∧ (p.join name).text.toList = t ++ '/' :: name.toList) ∨
      p.text.toList.getLast? ≠ some '/' ∧
        (p.join name).text.toList = p.text.toList ++ '/' :: name.toList := by
  rw [join, hrel, isEmpty_text hp]
  simp only [Bool.or_self, Bool.false_eq_true, if_false, beq_iff_eq]
  split
  · rename_i hlast
    obtain ⟨t, ht⟩ := List.getLast?_eq_some_iff.mp hlast
    exact .inl ⟨t, ht, by simp [ht]⟩
  · rename_i hlast
    exact .inr ⟨hlast, by simp⟩

theorem parts_join {p : Path} {name : String} (hp : p.text.toList ≠ [])
    (hrel : (Path.mk name).isAbsolute = false) :
    (p.join name).parts =
      Text.piecesBack p.text.toList.reverse ++ Text.splitAt '/' name.toList := by
  rcases toList_join hp hrel with ⟨t, ht, hjoin⟩ | ⟨hlast, hjoin⟩
  · rw [parts, hjoin, Text.splitAt_append_sep, ht, List.reverse_append, List.reverse_singleton,
      List.singleton_append, Text.piecesBack_slash, List.reverse_reverse]
  · rw [parts, hjoin, Text.splitAt_append_sep, Text.piecesBack_of_head (by simpa using hlast),
      List.reverse_reverse]

theorem isAbsolute_join {p : Path} {name : String} (hp : p.text.toList ≠ [])
    (hrel : (Path.mk name).isAbsolute = false) : (p.join name).isAbsolute = p.isAbsolute := by
  rw [isAbsolute, isAbsolute]
  rcases toList_join hp hrel with ⟨t, ht, hjoin⟩ | ⟨-, hjoin⟩
  · rw [ht, hjoin]
    cases t <;> rfl
  · obtain ⟨c, cs, hcs⟩ := List.exists_cons_of_ne_nil hp
    rw [hjoin, hcs]
    rfl

/-- The pieces of a path, as far as they matter to a name that is joined on. -/
theorem parts_eq_piecesBack (p : Path) :
    ∃ junk, (∀ piece ∈ junk, Text.IsIdle piece) ∧
      p.parts = Text.piecesBack p.text.toList.reverse ++ junk := by
  by_cases hlast : p.text.toList.getLast? = some '/'
  · obtain ⟨t, ht⟩ := List.getLast?_eq_some_iff.mp hlast
    refine ⟨[[]], by simp [Text.IsIdle], ?_⟩
    rw [parts, ht, Text.splitAt_append_sep, List.reverse_append, List.reverse_singleton,
      List.singleton_append, Text.piecesBack_slash, List.reverse_reverse]
    rfl
  · refine ⟨[], nofun, ?_⟩
    rw [Text.piecesBack_of_head (by simpa using hlast), List.reverse_reverse, List.append_nil,
      parts]

theorem isAbsolute_of_isName {name : String} (h : Text.IsName name.toList) :
    (Path.mk name).isAbsolute = false := by
  rw [isAbsolute, beq_eq_false_iff_ne]
  intro hhead
  exact h.no_slash (List.mem_of_head? hhead)

theorem trimBack_of_isName {name : Text} (h : Text.IsName name) (n : Nat) (rest : Text) :
    trimBack n (name.reverse ++ rest) = name.reverse ++ rest := by
  have hslash : '/' ∉ name.reverse := by simpa using h.no_slash
  have hdot : name.reverse ≠ ['.'] := fun heq => h.not_idle (.inr (by simpa using heq))
  cases hname : name.reverse with
  | nil => exact absurd (by simpa using hname) h.ne_nil
  | cons c cs =>
    rw [hname] at hslash hdot
    unfold trimBack
    split
    · rfl
    · rename_i heq
      simp only [List.cons_append, List.cons.injEq] at heq
      simp [heq.1] at hslash
    · rename_i heq
      cases cs with
      | nil => simp_all
      | cons d cs =>
        simp only [List.cons_append, List.cons.injEq] at heq
        simp [heq.2.1] at hslash
    · rfl

theorem dropWhile_of_isName {name : Text} (h : Text.IsName name) (rest : Text) :
    (name.reverse ++ rest).dropWhile (· != '/') = rest.dropWhile (· != '/') := by
  apply List.dropWhile_append_of_pos
  intro c hc
  rw [bne_iff_ne]
  rintro rfl
  exact h.no_slash (List.mem_reverse.mp hc)

theorem parentText_of_endsIn {p : Path} {name : String} (h : p.EndsIn name) :
    p.text.toList = name.toList ∧ p.parentText = "" ∨
      ∃ cs, p.text.toList = cs.reverse ++ '/' :: name.toList ∧
        p.parentText = String.ofList (trimBack (cs.length + 1) ('/' :: cs)).reverse := by
  obtain ⟨hname, front, hparts⟩ := h
  rcases Text.eq_of_splitAt_eq hparts with ⟨rfl, htext⟩ | ⟨t, htext, -⟩
  · refine .inl ⟨htext, ?_⟩
    have hback := trimBack_of_isName hname p.text.length []
    have hrest := dropWhile_of_isName hname []
    rw [List.append_nil] at hback hrest
    rw [parentText, htext, hback, hrest]
    rfl
  · refine .inr ⟨t.reverse, by simpa using htext, ?_⟩
    have hrev : p.text.toList.reverse = name.toList.reverse ++ '/' :: t.reverse := by
      simp [htext]
    rw [parentText, hrev, trimBack_of_isName hname, dropWhile_of_isName hname]
    simp

/-- Another name in the place of the last one: the pieces in front of it stay, up to idle ones. -/
theorem withFileName_parts {p : Path} {name other : String} (h : p.EndsIn name)
    (hother : Text.IsName other.toList) :
    ∃ front junk, (∀ piece ∈ junk, Text.IsIdle piece) ∧
      p.parts = front ++ junk ++ [name.toList] ∧
      (p.withFileName other).parts = front ++ [other.toList] ∧
      (p.withFileName other).isAbsolute = p.isAbsolute := by
  have hrel := isAbsolute_of_isName hother
  rw [withFileName, fileName?_of_endsIn h, Option.isSome_some, if_pos rfl]
  rcases parentText_of_endsIn h with ⟨htext, hparent⟩ | ⟨cs, htext, hparent⟩
  · have hjoin : (Path.mk p.parentText).join other = ⟨other⟩ := by
      rw [hparent, join, hrel]
      rfl
    refine ⟨[], [], nofun, ?_, ?_, ?_⟩
    · rw [parts, htext, Text.splitAt_of_not_mem h.1.no_slash]
      rfl
    · rw [hjoin, parts, Text.splitAt_of_not_mem hother.no_slash, List.nil_append]
    · rw [hjoin, hrel, ← isAbsolute_of_isName h.1, isAbsolute, isAbsolute, htext]
  · obtain ⟨hne, hlast, junk, hjunk, hpieces⟩ :=
      trimBack_pieces (cs.length + 1) ('/' :: cs) (by simp)
    have hopen : (Path.mk p.parentText).text.toList ≠ [] := by
      simpa [hparent] using hne
    refine ⟨Text.piecesBack (trimBack (cs.length + 1) ('/' :: cs)), junk, hjunk, ?_, ?_, ?_⟩
    · rw [parts, htext, Text.splitAt_append_sep, ← Text.piecesBack_slash, hpieces,
        Text.splitAt_of_not_mem h.1.no_slash]
    · rw [parts_join hopen hrel, Text.splitAt_of_not_mem hother.no_slash]
      simp [hparent]
    · rw [isAbsolute_join hopen hrel, isAbsolute, isAbsolute, hparent, htext]
      have hfirst : (cs.reverse ++ '/' :: name.toList).head? = ('/' :: cs).getLast? := by
        rw [List.getLast?_cons, List.head?_append, List.head?_reverse]
        cases cs.getLast? <;> rfl
      rw [hfirst, ← hlast]
      simp

theorem endsIn_of_isName {name : String} (h : Text.IsName name.toList) :
    (Path.mk name).EndsIn name :=
  ⟨h, [], Text.splitAt_of_not_mem h.no_slash⟩

theorem EndsIn.join {name last : String} (h : (Path.mk name).EndsIn last)
    (hrel : (Path.mk name).isAbsolute = false) (p : Path) : (p.join name).EndsIn last := by
  by_cases hp : p.text.toList = []
  · have hempty : p.text.isEmpty = true := by
      rw [String.toList_eq_nil_iff.mp hp]
      rfl
    rw [Path.join, hempty, Bool.or_true, if_pos rfl]
    exact h
  · obtain ⟨hname, front, hparts⟩ := h
    refine ⟨hname, Text.piecesBack p.text.toList.reverse ++ front, ?_⟩
    rw [parts_join hp hrel, List.append_assoc, ← hparts]
    rfl

theorem endsIn_append {s t : String} {c : Char} (hc : c ∈ t.toList) (hdot : c ≠ '.')
    (hslash : '/' ∉ t.toList) : ∃ name, (Path.mk (s ++ t)).EndsIn name := by
  obtain ⟨front, last, hs, hst⟩ := Text.splitAt_append (s := s.toList) hslash
  have hlast : '/' ∉ last :=
    Text.not_mem_of_mem_splitAt (hs ▸ List.mem_append_right front List.mem_cons_self)
  refine ⟨String.ofList (last ++ t.toList), ?_, front, ?_⟩
  · refine Text.IsName.of_mem (c := c) ?_ hdot ?_
    · simp [hc]
    · simp [hlast, hslash]
  · rw [parts, String.toList_append, hst, String.toList_ofList]

end Path

end Codemod
