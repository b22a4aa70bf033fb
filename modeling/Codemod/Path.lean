import Codemod.Text.Basic

/-!
# Codemod.Path

Paths as they are written, and the components that tell them apart.

The text of a path is never normalised: joining keeps what was there. Two paths are the same when
their components are, so repeated slashes and inner dots do not matter, and the order of paths is
that of their components: `a/x` comes before `a-b/x`.
-/

namespace Codemod

structure Path where
  text : String
  deriving DecidableEq, Repr, Inhabited

namespace Path

inductive Component where
  | root
  | current
  | parent
  | name (value : String)
  deriving DecidableEq, Repr, Inhabited

namespace Component

/-- Rank of the kinds of component in the order of paths. -/
def rank : Component → Nat
  | root => 0
  | current => 1
  | parent => 2
  | name _ => 3

/-- Kinds by rank, and names by their characters. -/
def lt : Component → Component → Bool
  | name a, name b => decide (a < b)
  | a, b => decide (a.rank < b.rank)

end Component

/-- The pieces of a path between slashes, empty ones and inner dots left out. -/
def pieces (p : Path) : List Text :=
  (Text.splitAt '/' p.text.toList).filter fun piece => !piece.isEmpty

def isAbsolute (p : Path) : Bool :=
  p.text.toList.head? == some '/'

def components (p : Path) : List Component :=
  let named (piece : Text) : Component :=
    if piece == ['.', '.'] then .parent else .name (String.ofList piece)
  let body := p.pieces
  let rest := (body.filter (· != ['.'])).map named
  if p.isAbsolute then .root :: rest
  else if body.head? == some ['.'] && (p.text.toList.head? == some '.') then .current :: rest
  else rest

/-- Whether two paths have the same components. -/
def same (p q : Path) : Bool :=
  p.components == q.components

/-- The order of component lists: the first difference decides, and a path comes before what it
leads to. -/
def componentsLt : List Component → List Component → Bool
  | _, [] => false
  | [], _ :: _ => true
  | a :: as, b :: bs => a.lt b || (a == b && componentsLt as bs)

def lt (p q : Path) : Bool :=
  componentsLt p.components q.components

/-- The path of `name` seen from `p`. An absolute `name` replaces `p`. -/
def join (p : Path) (name : String) : Path :=
  if (Path.mk name).isAbsolute || p.text.isEmpty then ⟨name⟩
  else if p.text.toList.getLast? == some '/' then ⟨p.text ++ name⟩
  else ⟨p.text ++ "/" ++ name⟩

/-- The last component, if it is a name. -/
def fileName? (p : Path) : Option String :=
  match p.components.getLast? with
  | some (.name value) => some value
  | _ => none

/-- Splits a name at its last dot; a dot at the beginning does not count. -/
def splitName (name : String) : String × Option String :=
  let cs := name.toList.reverse
  let ext := cs.takeWhile (· != '.')
  match cs.dropWhile (· != '.') with
  | [] | [_] => (name, none)
  | _ :: stem => (String.ofList stem.reverse, some (String.ofList ext.reverse))

def stem? (p : Path) : Option String :=
  p.fileName?.map fun name => (splitName name).1

def extension? (p : Path) : Option String :=
  p.fileName?.bind fun name => (splitName name).2

/-- Drops slashes and lone dots from the end of a path's text that is read backwards. -/
def trimBack : Nat → Text → Text
  | 0, cs => cs
  | n + 1, '/' :: cs => trimBack n (if cs.isEmpty then ['/'] else cs)
  | n + 1, '.' :: '/' :: cs => trimBack n ('/' :: cs)
  | _, cs => cs

/-- What is left of the text when its last component, a name, is taken away. -/
def parentText (p : Path) : String :=
  let back := trimBack p.text.length p.text.toList.reverse
  let rest := back.dropWhile (· != '/')
  String.ofList (trimBack rest.length rest).reverse

/-- The path with another name as its last component. -/
def withFileName (p : Path) (name : String) : Path :=
  if p.fileName?.isSome then (Path.mk p.parentText).join name else p.join name

end Path

end Codemod
