import Codemod.Project.BuildConfig
import Codemod.Proofs.Module.Component

/-!
# Codemod.Proofs.Project.BuildConfig

The edits of the build configuration.

A property is added behind the last one of an object (`ObjectLiteral.append_place`). The build
configuration has a property, so what is added to it are insertions behind the last property, and
the object of constants that one more constant goes into ends before that place.
-/

namespace Codemod

/-- The comma that is found stands in the text that is searched. -/
theorem trailingCommaFrom_eq_some {offset i : Nat} {search : CommaSearch} {text : Text}
    (h : trailingCommaFrom offset search text = some i) :
    ∃ front back, text = front ++ ',' :: back ∧ i = offset + front.size := by
  -- one step passes over a piece of the text
  have hstep {offset i : Nat} (piece : Text) {rest : Text}
      (h : ∃ front back, rest = front ++ ',' :: back ∧ i = offset + piece.size + front.size) :
      ∃ front back, piece ++ rest = front ++ ',' :: back ∧ i = offset + front.size := by
    obtain ⟨front, back, rfl, rfl⟩ := h
    exact ⟨piece ++ front, back, by simp, by rw [Text.size_append, Nat.add_assoc]⟩
  fun_induction trailingCommaFrom offset search text with
  | case1 => cases h
  | case2 offset cs ih => exact hstep ['/', '/'] (ih h)
  | case3 offset cs ih => exact hstep ['/', '*'] (ih h)
  | case4 offset cs =>
    cases h
    exact ⟨[], cs, rfl, rfl⟩
  | case5 offset c cs _ _ _ ih => exact hstep [c] (ih h)
  | case6 offset c cs ih => exact hstep [c] (ih h)
  | case7 offset cs ih => exact hstep ['*', '/'] (ih h)
  | case8 offset c cs _ ih => exact hstep [c] (ih h)

/-- The place behind a comma that is found between two offsets. -/
theorem boundary_trailingComma {source : Text} {start stop i : Nat} (hstart : source.Boundary start)
    (h : trailingComma? (source.slice start stop) = some i) :
    source.Boundary (start + i + 1) ∧ start + i + 1 ≤ stop := by
  obtain ⟨front, back, hslice, rfl⟩ := trailingCommaFrom_eq_some h
  have hcut := Text.before_append_after (stop - start) (source.after start)
  have hsize := Text.size_before_le (stop - start) (source.after start)
  rw [Text.slice] at hslice
  rw [hslice] at hcut hsize
  have hcomma : (',' : Char).utf8Size = 1 := rfl
  simp only [Text.size_append, Text.size_cons, hcomma] at hsize
  refine ⟨⟨source.before start ++ front ++ [','],
    back ++ (source.after start).after (stop - start), ?_, ?_⟩, by omega⟩
  · calc source = source.before start ++ source.after start := (Text.before_append_after ..).symm
      _ = source.before start ++ (front ++ ',' :: back ++
          (source.after start).after (stop - start)) := by rw [hcut]
      _ = _ := by simp
  · simp only [Text.size_append, Text.size_before hstart, Text.size_cons, Text.size_nil, hcomma]
    omega

namespace ObjectLiteral

variable {o : ObjectLiteral} {source : Text} {last value : Node} {name : String}

/-- The node of an object literal. -/
def node (o : ObjectLiteral) : Node :=
  .object o.span o.properties

theorem eq_node_of_object? {n : Node} (h : n.object? = some o) : n = o.node := by
  cases n with
  | object => cases h; rfl
  | _ => cases h

/-- A property that is added to an empty object replaces it; any other is inserted behind the last
one, before the closing brace. -/
theorem append_place (h : o.node.Tidy source) (entry : Text) :
    (o.properties = [] ∧ (o.append source entry).span = o.span) ∨
      ∃ last q, o.properties.getLast? = some last ∧ (o.append source entry).span = ⟨q, q⟩ ∧
        last.span.stop ≤ q ∧ q ≤ o.span.stop - 1 ∧ source.Boundary q := by
  cases hlast : o.properties.getLast? with
  | none => exact .inl ⟨List.getLast?_eq_none_iff.mp hlast, by simp only [append, hlast]; rfl⟩
  | some last =>
    have hmem : last ∈ o.properties := List.mem_of_getLast? hlast
    have hsharp := ((Node.tidy_iff.mp h).2 last hmem).sharp
    have hstop := (h.arranged.2.2.within last hmem last (Node.mem_postorder_self last)).2
    refine .inr ⟨last, ((o.append source entry).span).start, rfl, ?_⟩
    -- without a comma behind it the last property is followed at once
    cases hcomma : trailingComma? (source.slice last.span.stop (o.span.stop - 1)) with
    | none =>
      have hspan : (o.append source entry).span = ⟨last.span.stop, last.span.stop⟩ := by
        simp only [append, hlast, hcomma]
        split <;> rfl
      rw [hspan]
      exact ⟨rfl, Nat.le_refl _, hstop, hsharp.closes.boundary⟩
    | some i =>
      have hspan : (o.append source entry).span =
          ⟨last.span.stop + i + 1, last.span.stop + i + 1⟩ := by
        simp only [append, hlast, hcomma]
        split <;> rfl
      obtain ⟨hboundary, hle⟩ := boundary_trailingComma hsharp.closes.boundary hcomma
      rw [hspan]
      exact ⟨rfl, show last.span.stop ≤ last.span.stop + i + 1 by omega,
        show last.span.stop + i + 1 ≤ o.span.stop - 1 by omega, hboundary⟩

/-- What is added to an object stays within it. -/
theorem append_inside (h : o.node.Tidy source) (entry : Text) :
    (o.append source entry).span.Inside o.span := by
  rcases append_place h entry with ⟨-, hspan⟩ | ⟨last, q, hlast, hspan, hle, hstop, -⟩
  · rw [hspan]
    exact .refl _
  · have hmem : last ∈ o.properties := List.mem_of_getLast? hlast
    have hrow : Node.Row o.span.start o.span.stop o.properties := Node.row_of_object h.arranged
    have hstart := (hrow.within last hmem last (Node.mem_postorder_self last)).1
    have hlt := ((Node.tidy_iff.mp h).2 last hmem).sharp.lt
    rw [hspan]
    exact ⟨show o.span.start ≤ q by omega, show q ≤ o.span.stop by omega⟩

theorem append_fits (h : o.node.Tidy source) (entry : Text) :
    (o.append source entry).Fits source := by
  rcases append_place h entry with ⟨-, hspan⟩ | ⟨last, q, -, hspan, -, -, hboundary⟩
  · exact Span.Sharp.fits (hspan ▸ h.sharp)
  · exact Edit.fits_of_insert hspan hboundary

theorem mem_of_get? (h : o.get? name = some value) :
    ∃ p ∈ o.properties, value ∈ p.children := by
  obtain ⟨p, hp, hvalue⟩ := List.exists_of_findSome?_eq_some h
  split at hvalue
  · split at hvalue
    · cases hvalue
      exact ⟨_, hp, by simp [Node.children]⟩
    · cases hvalue
  · cases hvalue

/-- The value of a property ends before the place where a property is added. -/
theorem stop_le_append (h : o.node.Tidy source) (hget : o.get? name = some value) (entry : Text) :
    ∃ q, (o.append source entry).span = ⟨q, q⟩ ∧ value.span.stop ≤ q := by
  obtain ⟨p, hp, hvalue⟩ := mem_of_get? hget
  rcases append_place h entry with ⟨hnil, -⟩ | ⟨last, q, hlast, hspan, hle, -⟩
  · rw [hnil] at hp
    cases hp
  · refine ⟨q, hspan, ?_⟩
    have hinside : value.span.stop ≤ p.span.stop :=
      ((Node.tidy_iff.mp h).2 p hp).stop_le
        (Node.mem_postorder.mpr (.inr ⟨value, hvalue, Node.mem_postorder_self value⟩))
    have hrow : Node.Row o.span.start o.span.stop o.properties := Node.row_of_object h.arranged
    obtain ⟨init, hinit⟩ := List.getLast?_eq_some_iff.mp hlast
    have hordered := hrow.ordered
    rw [hinit] at hp hordered
    rcases List.mem_append.mp hp with hp | hp
    · have hlt := ((Node.tidy_iff.mp h).2 last (List.mem_of_getLast? hlast)).sharp.lt
      have hbefore := (List.pairwise_append.mp hordered).2.2 p hp last (List.mem_singleton_self _)
        p (Node.mem_postorder_self p) last (Node.mem_postorder_self last)
      omega
    · rw [List.mem_singleton.mp hp] at hinside
      omega

end ObjectLiteral

namespace BuildConfig

variable {script : Script} {config : ObjectLiteral} {root : String}

theorem has_of_find? {p : Program} (h : find? p = some (config, root)) :
    p.Has config.node ∧ ∃ value, config.get? "sourceRoot" = some value := by
  obtain ⟨object, hobject, hroot⟩ := List.exists_of_findSome?_eq_some h
  obtain ⟨_, hroot, heq⟩ := Option.map_eq_some_iff.mp hroot
  cases heq
  obtain ⟨_, n, hn, hmem⟩ := Program.exists_of_mem_gather hobject
  rw [ObjectLiteral.eq_node_of_object? (Option.mem_toList.mp hmem)] at hn
  obtain ⟨value, hvalue, -⟩ := Option.bind_eq_some_iff.mp hroot
  exact ⟨hn, value, hvalue⟩

/-- A constant that goes into an object of constants, and what is added to the configuration. -/
theorem edits_cases (source : Text) (style : Style) (options : Options) (config : ObjectLiteral) :
    ∃ (inner : List Edit) (entries : List Text), edits source style options config =
        inner ++ entries.map (config.append source) ∧
      (inner = [] ∨ ∃ (value : Node) (object : ObjectLiteral) (entry : Text),
        config.get? "defineConstants" = some value ∧ value.bare = object.node ∧
          inner = [object.append source entry]) := by
  refine ⟨_, _, rfl, ?_⟩
  cases hget : config.get? "defineConstants" with
  | none => exact .inl rfl
  | some value =>
    simp only [Option.map_some, Option.bind_some]
    cases hobject : value.bare.object? with
    | none => exact .inl rfl
    | some object =>
      dsimp only
      split
      · exact .inl rfl
      · exact .inr ⟨value, object, _, rfl, ObjectLiteral.eq_node_of_object? hobject, rfl⟩

theorem edits_lossless {source : Text} {p : Program} (h : p.Laid source)
    (hfind : find? p = some (config, root)) (style : Style) (options : Options) :
    Edit.Lossless source (edits source style options config) := by
  obtain ⟨hhas, first, hfirst⟩ := has_of_find? hfind
  have hconfig := h.tidy_of_has hhas
  have hpoint (entry : Text) : ∃ q, (config.append source entry).span = ⟨q, q⟩ := by
    obtain ⟨q, hspan, -⟩ := ObjectLiteral.stop_le_append hconfig hfirst entry
    exact ⟨q, hspan⟩
  -- the object of constants is part of the configuration
  have hinner {value : Node} {object : ObjectLiteral}
      (hget : config.get? "defineConstants" = some value) (hbare : value.bare = object.node) :
      object.node.Tidy source ∧ object.span.stop ≤ value.span.stop := by
    obtain ⟨q, hq, hvalue⟩ := ObjectLiteral.mem_of_get? hget
    have htidy := (Node.tidy_iff.mp ((Node.tidy_iff.mp hconfig).2 q hq)).2 value hvalue
    have hmem := Node.bare_mem_postorder value
    rw [hbare] at hmem
    exact ⟨htidy.of_mem hmem, htidy.stop_le hmem⟩
  obtain ⟨inner, entries, heq, hcases⟩ := edits_cases source style options config
  rw [heq, Edit.lossless_iff]
  · refine List.pairwise_append.mpr ⟨?_, ?_, ?_⟩
    · rcases hcases with rfl | ⟨_, _, _, -, -, rfl⟩
      · exact .nil
      · exact List.pairwise_singleton _ _
    · refine List.pairwise_of_forall_mem_list fun a ha b hb => ?_
      obtain ⟨_, -, rfl⟩ := List.mem_map.mp ha
      obtain ⟨_, -, rfl⟩ := List.mem_map.mp hb
      obtain ⟨q, hq⟩ := hpoint _
      obtain ⟨r, hr⟩ := hpoint _
      rw [hq, hr]
      exact Span.apart_insert q r
    · intro a ha b hb
      obtain ⟨entry, -, rfl⟩ := List.mem_map.mp hb
      rcases hcases with rfl | ⟨value, object, text, hget, hbare, rfl⟩
      · cases ha
      · rw [List.mem_singleton.mp ha]
        obtain ⟨q, hspan, hle⟩ := ObjectLiteral.stop_le_append hconfig hget entry
        obtain ⟨htidy, hstop⟩ := hinner hget hbare
        rw [hspan]
        exact .inl (Nat.le_trans (ObjectLiteral.append_inside htidy text).2 (Nat.le_trans hstop hle))
  · intro e he
    rcases List.mem_append.mp he with he | he
    · rcases hcases with rfl | ⟨value, object, text, hget, hbare, rfl⟩
      · cases he
      · rw [List.mem_singleton.mp he]
        exact ObjectLiteral.append_fits (hinner hget hbare).1 text
    · obtain ⟨entry, -, rfl⟩ := List.mem_map.mp he
      exact ObjectLiteral.append_fits hconfig entry

end BuildConfig

end Codemod
