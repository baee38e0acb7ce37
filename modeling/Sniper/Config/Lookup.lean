import Sniper.Config.Section

/-! # Looking values up by path

`config::Config`: paths are split at `/`, every section on the way to a key is made when it is
missing, also by a lookup.
-/
namespace Sniper.Configuration
open Lib

/-! ## Paths -/

def isLeaf (path : Text) : Bool := ¬ path.contains '/'

/-- `boost::split` on `/`, which keeps empty elements. -/
def pathElements (path : Text) : List Text := path.splitOn '/'

/-- `path.rfind("/")`. -/
def rfind (path : Text) : Option Nat :=
  (path.reverse.idxOf? '/').map fun i => path.length - 1 - i

/-- The path of the section and the name of the key. -/
def splitPath (path : Text) : Text × Text :=
  let path_elements := pathElements path
  let key_name := path_elements.getLastD []
  let base_path :=
    match rfind path with
    | some i => path.take i
    | none => []
  (base_path, key_name)

/-! ## The configuration -/

structure Config where
  m_case_sensitive : Bool
  m_root : Section

namespace Config

def new (case_sensitive : Bool) : Config := ⟨case_sensitive, .new []⟩

variable {α : Type*}

/-- `f` on the section reached from `s` through the elements of a path; `f` may change it. -/
def descend (caseSensitive : Bool) (f : Section → Except Fault (α × Section)) :
    List Text → Section → Except Fault (α × Section)
  | [], s => f s
  | element :: path_elements, s => do
    let s := if s.hasSection caseSensitive element then s else s.addSubsection caseSensitive element
    let iname := Section.iname caseSensitive element
    match AssocList.lookup iname s.m_subSections with
    | none => throw (.missingSection iname)
    | some sub => do
      let (a, sub) ← descend caseSensitive f path_elements sub
      return (a, { s with m_subSections := AssocList.assign iname sub s.m_subSections })

/-- `f` on the section that `getSection_unsafe` returns. -/
def getSection_unsafe (path : Text) (f : Section → Except Fault (α × Section)) (c : Config) :
    Except Fault (α × Config) := do
  let path_elements := if isLeaf path then [path] else pathElements path
  let (a, m_root) ← descend c.m_case_sensitive f path_elements c.m_root
  return (a, { c with m_root })

/-- `f` on the section of a path's key, given the key's name; the root for a leaf. -/
def atKey (path : Text) (f : Text → Section → Except Fault (α × Section)) (c : Config) :
    Except Fault (α × Config) :=
  if isLeaf path then do
    let (a, m_root) ← f path c.m_root
    return (a, { c with m_root })
  else
    let path_pair := splitPath path
    c.getSection_unsafe path_pair.1 (f path_pair.2)

def hasKey (path : Text) (index : UInt64) (c : Config) : Except Fault (Bool × Config) :=
  c.atKey path fun name s => return (s.hasKey c.m_case_sensitive name index, s)

/-- The error that `config::Error` reports for a path without a value. -/
def notFound (path : Text) (index : UInt64) : Fault :=
  if index = noIndex then .valueNotFound path else .valueNotFoundAt path index

def getKey (path : Text) (index : UInt64) (c : Config) : Except Fault (Key × Config) :=
  c.atKey path fun name s => do
    if ¬ s.hasKey c.m_case_sensitive name index then throw (notFound path index)
    let key ← s.getKey c.m_case_sensitive name index
    return (key, s)

variable {D : Type*} (castDouble : D → Text)

def addKey (path : Text) (value : Value D) (index : UInt64) (c : Config) :
    Except Fault (Unit × Config) :=
  c.atKey path fun name s =>
    return ((), s.addKey c.m_case_sensitive name (value.lexicalCast castDouble) index)

def set (path : Text) (new_value : Value D) (c : Config) : Except Fault (Unit × Config) :=
  c.addKey castDouble path new_value noIndex

def getSection (path : Text) (c : Config) : Except Fault (Unit × Config) :=
  c.getSection_unsafe path fun s => return ((), s)

def addSection (path : Text) (c : Config) : Except Fault (Unit × Config) :=
  let path_pair := splitPath path
  c.getSection_unsafe path_pair.1 fun s =>
    return ((), s.addSubsection c.m_case_sensitive path_pair.2)

end Config

/-! ## Runs -/

inductive Call (D : Type*)
  | addKey (path : Text) (value : Value D) (index : UInt64)
  | set (path : Text) (value : Value D)
  | hasKey (path : Text) (index : UInt64)
  | getKey (path : Text) (index : UInt64)
  | getSection (path : Text)
  | addSection (path : Text)

variable {D : Type*} (castDouble : D → Text)

def exec (c : Config) : Call D → Except Fault Config
  | .addKey path value index => (·.2) <$> c.addKey castDouble path value index
  | .set path value => (·.2) <$> c.set castDouble path value
  | .hasKey path index => (·.2) <$> c.hasKey path index
  | .getKey path index => (·.2) <$> c.getKey path index
  | .getSection path => (·.2) <$> c.getSection path
  | .addSection path => (·.2) <$> c.addSection path

/-- The calls one after the other on an empty configuration that ignores case. -/
def run (calls : List (Call D)) : Except Fault Config := calls.foldlM (exec castDouble) (.new false)

end Sniper.Configuration
