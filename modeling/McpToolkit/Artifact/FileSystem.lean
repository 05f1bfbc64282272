import Mathlib.Data.Int.Notation
import McpToolkit.Lib.Interference

/-!
# McpToolkit.Artifact.FileSystem — inodes, descriptors, and what others do to them

Directories map names to inode numbers.  A number may be used again once its inode is gone, so every inode has a
`generation` no system call shows: a descriptor names number and generation, and `FileSystem.Holds` says that the
inode it was opened on is still the one under that number.  The kernel never gives away the number of an open inode;
that is all `Respects FileSystem.Holds` asks of the rest of the world.

`perform` is the adversary's side: renames, removals, new files and links, changes of mode and content, with the
kernel's own rule for inodes that nothing refers to.
-/

namespace McpToolkit.Artifact

open Lib.Interference

abbrev Name := List UInt8

structure FileIdentity where
  device : ℕ
  inode : ℕ
  deriving DecidableEq

inductive Kind
  | regular
  | directory
  | symlink
  | other
  deriving DecidableEq

structure Timestamps where
  modifiedSeconds : ℤ
  modifiedNanoseconds : ℤ
  changedSeconds : ℤ
  changedNanoseconds : ℤ
  deriving DecidableEq

structure Inode where
  generation : ℕ
  kind : Kind
  uid : ℕ
  mode : UInt32
  links : ℕ
  times : Timestamps
  content : List UInt8
  entries : List (Name × FileIdentity)

/-- What `stat` shows of an inode. -/
structure Metadata where
  identity : FileIdentity
  kind : Kind
  length : ℕ
  mode : UInt32
  uid : ℕ
  links : ℕ
  times : Timestamps
  deriving DecidableEq

def Inode.metadata (inode : Inode) (identity : FileIdentity) : Metadata :=
  ⟨identity, inode.kind, inode.content.length, inode.mode, inode.uid, inode.links, inode.times⟩

/-- An open descriptor. -/
structure File where
  identity : FileIdentity
  generation : ℕ
  deriving DecidableEq

structure FileSystem where
  inode : FileIdentity → Option Inode
  generations : ℕ

namespace FileSystem

variable {fs : FileSystem} {file file' : File}

/-- The inode the descriptor was opened on is there. -/
def Holds (fs : FileSystem) (file : File) : Prop :=
  ∃ inode, fs.inode file.identity = some inode ∧ inode.generation = file.generation

/-- The name in the directory behind `parent` is the inode behind `child`. -/
structure Binds (fs : FileSystem) (parent : File) (name : Name) (child : File) : Prop where
  holdsParent : fs.Holds parent
  holdsChild : fs.Holds child
  entry : ∃ directory, fs.inode parent.identity = some directory ∧
    directory.entries.lookup name = some child.identity

theorem Holds.eq_of_identity (h : fs.Holds file) (h' : fs.Holds file') (hid : file.identity = file'.identity) :
    file = file' := by
  obtain ⟨inode, hfind, hgen⟩ := h
  obtain ⟨inode', hfind', hgen'⟩ := h'
  rw [hid] at hfind
  cases file
  simp_all

/-! ### The adversary -/

def update (fs : FileSystem) (identity : FileIdentity) (change : Inode → Inode) : FileSystem :=
  { fs with inode := fun j => if j = identity then (fs.inode j).map change else fs.inode j }

def put (fs : FileSystem) (identity : FileIdentity) (inode : Option Inode) : FileSystem :=
  { fs with inode := fun j => if j = identity then inode else fs.inode j }

def find (fs : FileSystem) (directory : FileIdentity) (name : Name) : Option FileIdentity :=
  (fs.inode directory).bind fun inode => inode.entries.lookup name

theorem holds_update {identity : FileIdentity} {change : Inode → Inode}
    (hchange : ∀ inode, (change inode).generation = inode.generation) (h : fs.Holds file) :
    (fs.update identity change).Holds file := by
  obtain ⟨inode, hfind, hgen⟩ := h
  by_cases hid : file.identity = identity
  · refine ⟨change inode, ?_, (hchange inode).trans hgen⟩
    show (if file.identity = identity then (fs.inode file.identity).map change else _) = _
    rw [if_pos hid, hfind]
    rfl
  · refine ⟨inode, ?_, hgen⟩
    show (if file.identity = identity then _ else fs.inode file.identity) = _
    rw [if_neg hid, hfind]

theorem holds_put {identity : FileIdentity} {inode : Option Inode} (hid : file.identity ≠ identity)
    (h : fs.Holds file) : (fs.put identity inode).Holds file := by
  obtain ⟨inode', hfind, hgen⟩ := h
  refine ⟨inode', ?_, hgen⟩
  show (if file.identity = identity then _ else fs.inode file.identity) = _
  rw [if_neg hid, hfind]

def bindName (fs : FileSystem) (directory : FileIdentity) (name : Name) (target : FileIdentity) : FileSystem :=
  fs.update directory fun inode => { inode with entries := (name, target) :: inode.entries }

def unbindName (fs : FileSystem) (directory : FileIdentity) (name : Name) : FileSystem :=
  fs.update directory fun inode => { inode with entries := inode.entries.filter fun entry => entry.1 != name }

/-- An inode goes when no name and no descriptor is left. -/
def reclaim (held : List File) (fs : FileSystem) (identity : FileIdentity) : FileSystem :=
  match fs.inode identity with
  | none => fs
  | some inode =>
    if inode.links = 0 ∧ (held.all fun file => file.identity ≠ identity) then fs.put identity none else fs

def unlink (held : List File) (fs : FileSystem) (directory : FileIdentity) (name : Name) : FileSystem :=
  match fs.find directory name with
  | none => fs
  | some target =>
    reclaim held ((fs.unbindName directory name).update target fun inode => { inode with links := inode.links - 1 })
      target

def rename (held : List File) (fs : FileSystem) (directory : FileIdentity) (name : Name)
    (newDirectory : FileIdentity) (newName : Name) : FileSystem :=
  match fs.find directory name with
  | none => fs
  | some target =>
    ((fs.unlink held newDirectory newName).unbindName directory name).bindName newDirectory newName target

/-- A new file, directory or symbolic link: the name must be unused and the number free. -/
def create (fs : FileSystem) (directory : FileIdentity) (name : Name) (number : FileIdentity) (kind : Kind) (uid : ℕ)
    (mode : UInt32) (content : List UInt8) : FileSystem :=
  match fs.find directory name, fs.inode number with
  | none, none =>
    let fs' : FileSystem := { fs with generations := fs.generations + 1 }
    (fs'.put number (some ⟨fs.generations, kind, uid, mode, 1, ⟨0, 0, 0, 0⟩, content, []⟩)).bindName directory name
      number
  | _, _ => fs

def link (fs : FileSystem) (directory : FileIdentity) (name : Name) (target : FileIdentity) : FileSystem :=
  match fs.find directory name with
  | some _ => fs
  | none => (fs.bindName directory name target).update target fun inode => { inode with links := inode.links + 1 }

end FileSystem

inductive Action
  | rename (directory : FileIdentity) (name : Name) (newDirectory : FileIdentity) (newName : Name)
  | unlink (directory : FileIdentity) (name : Name)
  | create (directory : FileIdentity) (name : Name) (number : FileIdentity) (kind : Kind) (uid : ℕ) (mode : UInt32)
      (content : List UInt8)
  | link (directory : FileIdentity) (name : Name) (target : FileIdentity)
  | chmod (target : FileIdentity) (uid : ℕ) (mode : UInt32)
  | write (target : FileIdentity) (content : List UInt8) (times : Timestamps)
  | truncate (target : FileIdentity) (length : ℕ) (times : Timestamps)

open FileSystem

/-- One action, `held` being the descriptors that keep their inodes; what the kernel would refuse changes nothing. -/
def perform (held : List File) (fs : FileSystem) : Action → FileSystem
  | .rename directory name newDirectory newName => fs.rename held directory name newDirectory newName
  | .unlink directory name => fs.unlink held directory name
  | .create directory name number kind uid mode content => fs.create directory name number kind uid mode content
  | .link directory name target => fs.link directory name target
  | .chmod target uid mode => fs.update target fun inode => { inode with uid := uid, mode := mode }
  | .write target content times => fs.update target fun inode => { inode with content := content, times := times }
  | .truncate target length times =>
    fs.update target fun inode => { inode with content := inode.content.take length, times := times }

/-- An adversary who performs `plan k` before the `k`-th system call. -/
def interfere (plan : ℕ → List Action) : Env FileSystem File :=
  fun time held fs => (plan time).foldl (perform held) fs

section Respect

variable {fs : FileSystem} {held : List File} {file : File}

theorem holds_reclaim {identity : FileIdentity} (hheld : file ∈ held) (h : fs.Holds file) :
    (reclaim held fs identity).Holds file := by
  unfold reclaim
  split
  · exact h
  · split_ifs with hfree
    · apply holds_put _ h
      exact of_decide_eq_true (List.all_eq_true.mp hfree.2 file hheld)
    · exact h

variable {directory : FileIdentity} {name : Name}

theorem holds_bindName {target : FileIdentity} (h : fs.Holds file) : (fs.bindName directory name target).Holds file :=
  holds_update (by intro; rfl) h

theorem holds_unbindName (h : fs.Holds file) : (fs.unbindName directory name).Holds file :=
  holds_update (by intro; rfl) h

theorem holds_unlink (hheld : file ∈ held) (h : fs.Holds file) : (fs.unlink held directory name).Holds file := by
  unfold FileSystem.unlink
  split
  · exact h
  · apply holds_reclaim hheld
    exact holds_update (by intro; rfl) (holds_unbindName h)

theorem holds_create {number : FileIdentity} {kind : Kind} {uid : ℕ} {mode : UInt32}
    {content : List UInt8} (h : fs.Holds file) :
    (fs.create directory name number kind uid mode content).Holds file := by
  unfold FileSystem.create
  split
  case h_1 hfree =>
    have hne : file.identity ≠ number := by
      intro heq
      obtain ⟨inode, hfind, -⟩ := h
      rw [heq, hfree] at hfind
      cases hfind
    exact holds_bindName (holds_put hne h)
  case h_2 => exact h

theorem holds_perform (hheld : file ∈ held) (h : fs.Holds file) (action : Action) :
    (perform held fs action).Holds file := by
  cases action with
  | rename directory name newDirectory newName =>
    show (fs.rename held directory name newDirectory newName).Holds file
    unfold FileSystem.rename
    split
    · exact h
    · exact holds_bindName (holds_unbindName (holds_unlink hheld h))
  | unlink directory name => exact holds_unlink hheld h
  | create directory name number kind uid mode content => exact holds_create h
  | link directory name target =>
    show (fs.link directory name target).Holds file
    unfold FileSystem.link
    split
    · exact h
    · exact holds_update (by intro; rfl) (holds_bindName h)
  | chmod target uid mode | write target content times | truncate target length times =>
    exact holds_update (by intro; rfl) h

theorem respects_interfere (plan : ℕ → List Action) : Respects FileSystem.Holds (interfere plan) := by
  intro time held fs hall file hheld
  have hrun : ∀ (actions : List Action) (fs : FileSystem), fs.Holds file →
      (actions.foldl (perform held) fs).Holds file := by
    intro actions
    induction actions with
    | nil => exact fun _ h => h
    | cons action rest ih => exact fun fs h => ih _ (holds_perform hheld h action)
  exact hrun (plan time) fs (hall file hheld)

end Respect

end McpToolkit.Artifact
