import Sniper.Lib.AssocList

/-! # Sections of a configuration

`config::Section`: a tree of sections, each with the default value of its keys and, for each
key, the values that override the default at an index. Texts are lists of characters.
-/
namespace Sniper.Configuration

abbrev Text := List Char

/-- `UINT64_MAX`, the index of a key that is not indexed. -/
def noIndex : UInt64 := 0xFFFFFFFFFFFFFFFF

/-- `config::Key`: the name as written and the value as text. -/
structure Key where
  m_name : Text
  m_value : Text

/-- The types of values that `addKey` accepts. -/
inductive Value (D : Type*)
  | string (s : Text)
  | int (i : Int64)
  | float (d : D)

/-- `boost::lexical_cast<String>`, with the cast of a `double` as a parameter. -/
def Value.lexicalCast {D : Type*} (castDouble : D → Text) : Value D → Text
  | .string s => s
  | .int i => (toString i.toInt).toList
  | .float d => castDouble d

/-- How an access can end the program: the two texts of `config::Error`, or a missing entry of
`m_keys` or `m_subSections` that is followed all the same. -/
inductive Fault
  | valueNotFound (path : Text)
  | valueNotFoundAt (path : Text) (index : UInt64)
  | missingKey (name : Text)
  | missingSection (name : Text)

structure Section where
  m_name : Text
  m_subSections : List (Text × Section)
  m_keys : List (Text × Key)
  m_array_keys : List (Text × List (Option Key))

namespace Section
open Lib

def new (name : Text) : Section := ⟨name, [], [], []⟩

/-- `boost::to_lower` on a name, unless the configuration is case-sensitive. Every section has
the flag of the section that it is made in. -/
def iname (caseSensitive : Bool) (name : Text) : Text :=
  if caseSensitive then name else name.map Char.toLower

variable (caseSensitive : Bool)

def addSubsection (name_ : Text) (s : Section) : Section :=
  let iname := iname caseSensitive name_
  { s with m_subSections := AssocList.insert iname (.new name_) s.m_subSections }

/-- `std::vector::resize` with null pointers for the new entries. -/
def resize (needed_size : UInt64) (arr : List (Option Key)) : List (Option Key) :=
  arr.take needed_size.toNat ++ List.replicate (needed_size.toNat - arr.length) none

def addKey (name_ value : Text) (index : UInt64) (s : Section) : Section :=
  let iname := iname caseSensitive name_
  if index = noIndex then
    { s with
      m_keys := AssocList.insert iname ⟨name_, value⟩ (AssocList.erase iname s.m_keys)
      m_array_keys := AssocList.erase iname s.m_array_keys }
  else
    let needed_size := index + 1
    let arr :=
      match AssocList.lookup iname s.m_array_keys with
      | some arr =>
        if arr.length < needed_size.toNat then resize needed_size arr
        else arr.set index.toNat none
      | none => resize needed_size []
    { s with
      m_array_keys :=
        AssocList.assign iname (arr.set index.toNat (some ⟨name_, value⟩)) s.m_array_keys }

/-- `*(m_keys[iname])`. -/
def defaultKey (iname : Text) (s : Section) : Except Fault Key :=
  match AssocList.lookup iname s.m_keys with
  | some key => .ok key
  | none => .error (.missingKey iname)

/-- The overriding key at an index, when the array reaches that far and the entry is set. -/
def arrayKey (iname : Text) (index : UInt64) (s : Section) : Option Key :=
  match AssocList.lookup iname s.m_array_keys with
  | some arr => if arr.length ≥ (index + 1).toNat then arr[index.toNat]?.join else none
  | none => none

def getKey (name_ : Text) (index : UInt64) (s : Section) : Except Fault Key :=
  let iname := iname caseSensitive name_
  if index = noIndex then s.defaultKey iname
  else
    match s.arrayKey iname index with
    | some key => .ok key
    | none => s.defaultKey iname

def hasSection (name : Text) (s : Section) : Bool :=
  (AssocList.lookup (iname caseSensitive name) s.m_subSections).isSome

def hasKey (name : Text) (index : UInt64) (s : Section) : Bool :=
  let iname := iname caseSensitive name
  if index = noIndex then
    if (AssocList.lookup iname s.m_keys).isSome then true
    else if (AssocList.lookup iname s.m_array_keys).isSome then true
    else false
  else (s.arrayKey iname index).isSome || (AssocList.lookup iname s.m_keys).isSome

end Section
end Sniper.Configuration
