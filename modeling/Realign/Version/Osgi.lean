import Realign.Version.Basic

/-!
The OSGi form of a version: `major.minor.micro.qualifier`. Without a qualifier
only the numbers that are written come out; with one, missing numbers are zero
and every character that OSGi does not allow in a qualifier becomes a hyphen.
-/
namespace Realign.Version

open Text

def isQualifierChar (c : Char) : Bool := c.isAlphanum || c = '_' || c = '-'

def isNumber (text : List Char) : Bool := !text.isEmpty && text.all isDecimal

def isOsgi (v : Version) : Bool :=
  match piecesAt '.' v.chars with
  | [major] => isNumber major
  | [major, minor] => isNumber major && isNumber minor
  | [major, minor, micro] => isNumber major && isNumber minor && isNumber micro
  | [major, minor, micro, qualifier] =>
    isNumber major && isNumber minor && isNumber micro
      && !qualifier.isEmpty && qualifier.all isQualifierChar
  | _ => false

def dotted (parts : List (List Char)) : List Char := ['.'].intercalate parts

def osgiQualifier (qualifier : List Char) : List Char :=
  qualifier.map fun c => if isQualifierChar c then c else '-'

def toOsgi (v : Version) : List Char :=
  if v.qualifier = [] then
    match v.split.major with
    | none => v.chars
    | some major => dotted (major :: [v.split.minor, v.split.micro].filterMap id)
  else dotted [v.major, v.minor, v.micro, osgiQualifier v.qualifier]

end Realign.Version
