import ScriptMin.Data.Value
import ScriptMin.Digest

/-!
Permutations: the values of the build settings of one variant of the output. A registry
shares one instance among permutations with the same key.
-/

namespace ScriptMin

/-- Values of settings, in ascending order of their names. -/
structure Permutation where
  settings : List (String × Data) := []
  deriving Repr, Inhabited

namespace Permutation

/-- The permutation with the given settings; of several with one name the last one
counts. -/
def ofFields (fields : List (String × Data)) : Permutation :=
  ⟨Data.sortFields (Data.canonicalFields fields)⟩

/-- The permutation that an object describes; nothing describes the empty one. -/
def ofData? : Data → Option Permutation
  | .null => some {}
  | .object fields => some (ofFields fields)
  | _ => none

def get? (p : Permutation) (name : String) : Option Data := p.settings.lookup name

def has (p : Permutation) (name : String) : Bool := (p.get? name).isSome

def isEmpty (p : Permutation) : Bool := p.settings.isEmpty

def names (p : Permutation) : List String := p.settings.map (·.1)

/-- Text that identifies the permutation: names with values, separated by semicolons. -/
def keyBy (write : Data.Writer) (p : Permutation) : String :=
  ";".intercalate (p.settings.map fun (name, value) => name ++ ":" ++ write value)

def key (p : Permutation) : String := p.keyBy Data.text

/-- The first four bytes of what a digest makes of the key. -/
def checksumBy (write : Data.Writer) (digest : Digest.Method) (p : Permutation) : String :=
  String.ofList (Text.hexText 8 (Digest.wordBy digest (p.keyBy write)))

def checksum (p : Permutation) : String := p.checksumBy Data.text Digest.ofBytes

def filter (p : Permutation) (names : List String) : Permutation :=
  ⟨p.settings.filter fun (name, _) => names.contains name⟩

def text (p : Permutation) : String := (Data.object p.settings).text

/-- Shared permutations; the position of one is the number of its instance. -/
structure Registry where
  instances : List Permutation := []
  deriving Repr, Inhabited

namespace Registry

def size (r : Registry) : Nat := r.instances.length

def get? (r : Registry) (index : Nat) : Option Permutation := r.instances[index]?

/-- Number of the instance that stands for a permutation: the one with the same key,
or the permutation itself as a new one. -/
def internBy (write : Data.Writer) (p : Permutation) (r : Registry) : Nat × Registry :=
  match r.instances.findIdx? fun other => other.keyBy write == p.keyBy write with
  | some index => (index, r)
  | none => (r.size, ⟨r.instances ++ [p]⟩)

def internFilteredBy (write : Data.Writer) (p : Permutation) (names : List String) (r : Registry) :
    Nat × Registry :=
  internBy write (p.filter names) r

def intern : Permutation → Registry → Nat × Registry := internBy Data.text

def internFiltered : Permutation → List String → Registry → Nat × Registry :=
  internFilteredBy Data.text

end Registry

end Permutation

end ScriptMin
