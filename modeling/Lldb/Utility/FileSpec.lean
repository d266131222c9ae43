import Lldb.Library.PosixNames

/-! `FileSpec`: a path kept as a directory and a file name, after its redundant components have been removed.

The path functions of the support library and the file system are not part of the repository; they are parameters.
On a POSIX host the native path style is the POSIX one.
-/

set_option autoImplicit false

namespace Lldb

open Library.PosixPath (Path slash dot)

def backslash : UInt8 := 0x5c

inductive Style
  | native
  | posix
  | windows
  deriving DecidableEq, Repr

def getNativeStyle : Style := .posix

abbrev ConstString := Option Path

namespace ConstString

def getStringRef (string : ConstString) : Path := string.getD []

def isEmpty : ConstString → Bool
  | none => true
  | some [] => true
  | some (c :: _) => c = 0

def toLower (c : UInt8) : UInt8 := if 0x41 ≤ c ∧ c ≤ 0x5a then c + 0x20 else c

def equals (lhs rhs : ConstString) (caseSensitive : Bool) : Bool :=
  if lhs = rhs then true
  else if caseSensitive then false
  else lhs.getStringRef.map toLower = rhs.getStringRef.map toLower

end ConstString

/-- What is asked of the support library and, for `resolve`, of the file system. -/
structure Host where
  removeDots : Path → Style → Path
  filename : Path → Style → Path
  parentPath : Path → Style → Path
  append : Style → Path → Path → Path
  isAbsolute : Path → Style → Bool
  /-- `FileSpec::Resolve` for a path that is not empty. -/
  resolve : Path → Path

/-- What the support library documents for paths in the POSIX style: `removeDots` leaves out empty components and
those that are `.` and cancels `..`, the file name is the last component and the parent path what stands in front of
it, and an appended component is set off by one separator.
-/
structure Host.Documented (host : Host) : Prop where
  removeDots : ∀ path, host.removeDots path .posix = Library.PosixPath.removeDots path
  filename : ∀ path, host.filename path .posix = Library.PosixPath.filename path
  parentPath : ∀ path, host.parentPath path .posix = Library.PosixPath.parentPath path
  append : ∀ path component, host.append .posix path component = Library.PosixPath.append path component
  isAbsolute : ∀ path, host.isAbsolute path .posix = Library.PosixPath.absolute path

/-- A host that treats every style as the POSIX one and whose file system resolves as given. -/
def Host.posix (resolve : Path → Path) : Host where
  removeDots path _ := Library.PosixPath.removeDots path
  filename path _ := Library.PosixPath.filename path
  parentPath path _ := Library.PosixPath.parentPath path
  append _ path component := Library.PosixPath.append path component
  isAbsolute path _ := Library.PosixPath.absolute path
  resolve := resolve

theorem Host.posix_documented (resolve : Path → Path) : (Host.posix resolve).Documented :=
  ⟨fun _ => rfl, fun _ => rfl, fun _ => rfl, fun _ _ => rfl, fun _ => rfl⟩

structure FileSpec where
  directory : ConstString
  filename : ConstString
  isResolved : Bool
  style : Style
  deriving DecidableEq, Repr

/-! Whether a path needs to be normalised. -/

def isSeparator (c : UInt8) : Bool := c = backslash || c = slash

def safeCharAtIndex (path : Path) (i : Nat) : UInt8 := path.getD i 0

def dotsEnd (path : Path) : Bool :=
  let nextNext := safeCharAtIndex path 0
  let nextNextNext := safeCharAtIndex path 1
  if nextNext = 0 ∨ isSeparator nextNext then true
  else nextNext = dot && (nextNextNext = 0 || isSeparator nextNextNext)

/-- The loop over the separators, from some index on, which is zero at first. -/
def needsNormalizationLoop : Bool → Path → Bool
  | _, [] => false
  | first, c :: rest =>
    if isSeparator c then
      match rest with
      | [] => !first
      | next :: others =>
        if next = 0 then !first
        else if isSeparator next then
          -- behind a separator at the very start the next one is skipped
          if first then needsNormalizationLoop false others else true
        else if next = dot ∧ dotsEnd others then true
        else needsNormalizationLoop false (next :: others)
    else needsNormalizationLoop false rest

def needsNormalization : Path → Bool
  | [] => false
  | c :: rest => if c = dot then true else needsNormalizationLoop true (c :: rest)

namespace FileSpec

variable (host : Host)

def setFile (pathname : Path) (resolve : Bool) (style : Style) : FileSpec :=
  let style := if style = .native then getNativeStyle else style
  if pathname = [] then { directory := none, filename := none, isResolved := false, style }
  else
    let resolved := if resolve then host.resolve pathname else pathname
    let resolved := if needsNormalization resolved then host.removeDots resolved style else resolved
    let resolved := if style = .windows then resolved.map fun c => if c = backslash then slash else c else resolved
    if resolved = [] then { directory := none, filename := some [dot], isResolved := resolve, style }
    else
      let filename := host.filename resolved style
      let directory := host.parentPath resolved style
      { directory := if directory = [] then none else some directory
        filename := if filename = [] then none else some filename
        isResolved := resolve
        style }

def denormalize (path : Path) (style : Style) : Path :=
  if style = .posix ∨ style = .native ∧ getNativeStyle = .posix then path
  else path.map fun c => if c = slash then backslash else c

def getPath (spec : FileSpec) (denormalized : Bool) : Path :=
  let path := if !spec.directory.isEmpty && !spec.filename.isEmpty
      && spec.directory.getStringRef.getLast? ≠ some slash && spec.filename.getStringRef.getLast? ≠ some slash then
    spec.directory.getStringRef ++ slash :: spec.filename.getStringRef
  else spec.directory.getStringRef ++ spec.filename.getStringRef
  if denormalized && path ≠ [] then denormalize path spec.style else path

def appendPathComponent (spec : FileSpec) (component : Path) : FileSpec :=
  setFile host (host.append spec.style (spec.getPath false) component) false spec.style

/-- Paths starting with `~` are considered to be absolute. -/
def isAbsolute (spec : FileSpec) : Bool :=
  match spec.getPath false with
  | [] => false
  | c :: rest => if c = 0x7e then true else host.isAbsolute (c :: rest) spec.style

def isRelative (spec : FileSpec) : Bool := !spec.isAbsolute host

end FileSpec

end Lldb
