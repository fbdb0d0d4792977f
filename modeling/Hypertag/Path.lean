import Hypertag.Text.Basic

/-!
# Paths

Slash-separated paths. A normal path has no empty parts, no `.`, and no `..` behind another part.
A `Path` is a normal absolute path as the list of its parts.
-/

namespace Hypertag

abbrev Path := List Text

namespace Path

def slash : UInt16 := 0x2F

def dot : UInt16 := 0x2E

def here : Text := [dot]

def parent : Text := [dot, dot]

def isAbsolute (t : Text) : Bool := t.head? = some slash

/-- The parts of a written path that name something. -/
def parts (t : Text) : List Text := (t.split slash).filter fun part => !part.isEmpty && part ≠ here

/-- The steps of a written path: names, `.` and `..`. A slash at the end is an empty step, which
only a directory allows. -/
def steps (t : Text) : List Text :=
  let named := (t.split slash).filter (!·.isEmpty)
  if t.getLast? = some slash then named ++ [[]] else named

/-- Follows parts from a directory, nearest part first. Above the top there is nothing, or, for a
relative path, a further `..`. -/
def follow (absolute : Bool) : List Text → List Text → List Text
  | trail, [] => trail
  | trail, part :: rest =>
    if part = parent then
      match trail with
      | [] => follow absolute (if absolute then [] else [parent]) rest
      | last :: before =>
        if last = parent then follow absolute (parent :: trail) rest
        else follow absolute before rest
    else follow absolute (part :: trail) rest

def reduce (absolute : Bool) (ps : List Text) : List Text := (follow absolute [] ps).reverse

/-- The normal form of a written path. It keeps a slash at the end. -/
def normalize (t : Text) : Text :=
  let body := Text.joinWith [slash] (reduce (isAbsolute t) (parts t))
  let trailing := t.getLast? = some slash
  if isAbsolute t then
    if body.isEmpty then [slash] else slash :: body ++ (if trailing then [slash] else [])
  else
    let body := if body.isEmpty then here else body
    body ++ (if trailing then [slash] else [])

/-- A name inside a written directory, in normal form. -/
def join (directory name : Text) : Text :=
  if directory.isEmpty then normalize name
  else if name.isEmpty then normalize directory
  else normalize (directory ++ slash :: name)

def render (p : Path) : Text := slash :: Text.joinWith [slash] p

/-- The path that a written path means inside a directory. -/
def resolve (base : Path) (t : Text) : Path :=
  reduce true (if isAbsolute t then parts t else base ++ parts t)

/-- An absolute path from its written form. -/
def ofText (t : Text) : Path := resolve [] t

/-- The last part of a written path; slashes at its end do not count. -/
def lastPart (t : Text) : Text :=
  ((t.reverse.dropWhile (· = slash)).takeWhile (· ≠ slash)).reverse

/-- What follows the last dot of the last part. A dot at the start of a part, or with nothing
behind it, makes no extension. -/
def extension? (t : Text) : Option Text :=
  let name := (lastPart t).reverse
  let ext := name.takeWhile (· ≠ dot)
  let stem := name.drop (ext.length + 1)
  if ext.isEmpty || stem.isEmpty then none else some ext.reverse

end Path

end Hypertag
