import Hypertag.Uri.Percent

/-!
# Uris

Documents are named by uris. A uri without a scheme names a file. The file path of a uri is what
the project's paths are compared with.
-/

namespace Hypertag

structure Uri where
  scheme : Text
  authority : Text
  path : Text
  deriving DecidableEq

inductive UriError where
  | badScheme
  | doubleSlash
  deriving DecidableEq

def UriError.message : UriError → Text
  | badScheme => "[UriError]: Scheme contains illegal characters."
  | doubleSlash =>
    "[UriError]: If a URI does not contain an authority component, then the path cannot begin " ++
      "with two slash characters (\"//\")"

namespace Uri

def colon : UInt16 := 0x3A

def slash : UInt16 := 0x2F

def question : UInt16 := 0x3F

def hash : UInt16 := 0x23

def fileScheme : Text := "file"

/-- The scheme, empty when there is none, and what follows it. -/
def splitScheme (t : Text) : Text × Text :=
  let scheme := t.takeWhile fun u => u ≠ colon && u ≠ slash && u ≠ question && u ≠ hash
  let rest := t.drop scheme.length
  if !scheme.isEmpty && rest.head? = some colon then (scheme, rest.drop 1) else ([], t)

/-- The authority between two slashes and the next one, and what follows it. -/
def splitAuthority (t : Text) : Text × Text :=
  if [slash, slash].isPrefixOf t then
    let rest := t.drop 2
    let authority := rest.takeWhile fun u => u ≠ slash && u ≠ question && u ≠ hash
    (authority, rest.drop authority.length)
  else ([], t)

def isWordUnit (u : UInt16) : Bool := Percent.isAlphanumeric u || u = 0x5F

def isSchemeUnit (u : UInt16) : Bool := isWordUnit u || u = 0x2B || u = 0x2E || u = 0x2D

def isScheme (t : Text) : Bool :=
  match t with
  | [] => false
  | u :: rest => isWordUnit u && rest.all isSchemeUnit

/-- Paths of files and web pages start with a slash. -/
def rooted (scheme path : Text) : Text :=
  if scheme = fileScheme ∨ scheme = "http" ∨ scheme = "https" then
    if path.head? = some slash then path else slash :: path
  else path

def parse (t : Text) : Except UriError Uri :=
  let (written, afterScheme) := splitScheme t
  let scheme := if written.isEmpty then fileScheme else written
  let (authority, afterAuthority) := splitAuthority afterScheme
  let path := afterAuthority.takeWhile fun u => u ≠ question && u ≠ hash
  let authority := Percent.decode authority
  let path := rooted scheme (Percent.decode path)
  if !isScheme scheme then .error .badScheme
  else if authority.isEmpty && [slash, slash].isPrefixOf path then .error .doubleSlash
  else .ok ⟨scheme, authority, path⟩

def lowerUnit (u : UInt16) : UInt16 := if Percent.isUpper u then u + 0x20 else u

/-- The path on disk. A share keeps its host; a drive loses the slash before it. -/
def filePath (u : Uri) : Text :=
  if !u.authority.isEmpty && 1 < u.path.length && u.scheme = fileScheme then
    slash :: slash :: u.authority ++ u.path
  else match u.path with
    | first :: drive :: second :: rest =>
      if first = slash && Percent.isLetter drive && second = colon then
        lowerUnit drive :: second :: rest
      else u.path
    | _ => u.path

/-- A path with the letter of its drive in lower case. -/
def lowerDrive (path : Text) : Text :=
  match path with
  | first :: drive :: second :: rest =>
    if first = slash && second = colon then first :: lowerUnit drive :: second :: rest else path
  | _ => path

/-- The uri of an absolute path. -/
def ofPath (path : Text) : Text := "file://" ++ Percent.encodePath (lowerDrive path)

end Uri

end Hypertag
