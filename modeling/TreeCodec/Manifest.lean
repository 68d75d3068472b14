import TreeCodec.Manifest.Outline

/-!
Where generated code finds a crate.

A manifest lists the crates that a package depends on. A crate listed there is found under its own
name. One whose name starts with `vc_` is also found inside the facade crate, if that is listed.

Manifests are read from files. What was read is kept per directory, and read again only when the
file's modification time has changed.
-/
namespace TreeCodec

structure Manifest where
  -- The paths of its keys. A broken manifest has none.
  keys : List KeyPath := []

namespace Manifest

def facade : String := "vc_wizard"

/-- What the names of the crates inside the facade start with. -/
def familyMark : String := "vc_"

/-- The tables that are searched, in this order. -/
def searched : List String := ["dependencies", "dev-dependencies"]

/-- The name of a crate inside the facade. -/
def nameInFacade? (crate : String) : Option String :=
  let mark := familyMark.toList
  if mark.isPrefixOf crate.toList then some (String.ofList (crate.toList.drop mark.length))
  else none

/-- The path of a crate as a list of names, as far as one table gives it. -/
def pathIn? (listed : List String) (crate : String) : Option (List String) :=
  if listed.contains crate then some [crate]
  else if listed.contains facade then (nameInFacade? crate).map ([facade, ·])
  else none

/-- The crates listed in a table: the names that follow its own in the paths of the keys. A table
written as one value has no such paths. -/
def listed (m : Manifest) (table : String) : List String :=
  m.keys.filterMap fun
    | name :: crate :: _ => if name = table then some crate else none
    | _ => none

/-- The path of a crate: the one that the first table gives, or else its own name. -/
def cratePath (m : Manifest) (crate : String) : List String :=
  (searched.findSome? fun table => pathIn? (m.listed table) crate).getD [crate]

end Manifest

/-- Manifest files, the directory in use, and what is kept of the files read. -/
structure Workspace where
  -- For each directory with a manifest, its modification time and contents.
  files : List (String × Int × Manifest) := []
  current : Option String := none
  cache : List (String × Int × Manifest) := []

namespace Workspace

def write (w : Workspace) (dir : String) (time : Int) (m : Manifest) : Workspace :=
  { w with files := Keyed.put dir (time, m) w.files }

def remove (w : Workspace) (dir : String) : Workspace :=
  { w with files := w.files.filter (·.1 ≠ dir) }

def use (w : Workspace) (dir : Option String) : Workspace := { w with current := dir }

/-- The manifest in use. It is empty if no directory is in use or the directory has no manifest. -/
def manifest (w : Workspace) : Manifest × Workspace :=
  match w.current.bind fun dir => (Keyed.get? dir w.files).map (dir, ·) with
  | none => ({}, w)
  | some (dir, time, written) =>
    match Keyed.get? dir w.cache with
    | some (time', kept) =>
      if time' = time then (kept, w)
      else (written, { w with cache := Keyed.put dir (time, written) w.cache })
    | none => (written, { w with cache := Keyed.put dir (time, written) w.cache })

theorem current_manifest (w : Workspace) : w.manifest.2.current = w.current := by
  unfold manifest
  split <;> (try split) <;> (try split) <;> rfl

theorem files_manifest (w : Workspace) : w.manifest.2.files = w.files := by
  unfold manifest
  split <;> (try split) <;> (try split) <;> rfl

end Workspace

end TreeCodec
