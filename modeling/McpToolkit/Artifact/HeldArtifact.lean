import McpToolkit.Artifact.FileSystem

/-!
# McpToolkit.Artifact.HeldArtifact — opening, reading and revalidating a private artifact

The Linux part of the private-artifact crate, system call by system call.  Before every call the adversary acts; a call
may fail for reasons of its own (`fails`), a read may be short (`chunk`), and how the kernel walks an absolute path is
left open (`resolve`).  Directories and file are opened relative to held descriptors, so nothing below the root depends
on that walk.

`openHashed` is `HeldArtifact::open` with the bytes it hashed as a further result, which only the proofs look at.
-/

namespace McpToolkit.Artifact

open Lib.Interference Lib.Interference.Prog

def maxPrivateArtifactBytes : ℕ := 256 * 1024 * 1024

inductive PrivateArtifactError
  | invalidSizeLimit
  | rootPathInvalid
  | rootUnavailable
  | rootOwnershipMismatch
  | rootModeMismatch
  | unsafeRootAncestor
  | inputPathInvalid
  | inputOutsideRoot
  | inputAncestorUnsafe
  | inputUnavailable
  | finalSymlink
  | inputNotRegular
  | inputOwnershipMismatch
  | inputModeMismatch
  | inputHardlinkAmbiguous
  | inputSizeInvalid
  | inputReadFailed
  | inputTruncated
  | inputGrew
  | inputIdentityDrift
  | inputMetadataDrift
  | descriptorPathDisagreement
  | inputContentDrift
  deriving DecidableEq

structure PrivateArtifactPolicy where
  maxBytes : ℕ
  bounded : 0 < maxBytes ∧ maxBytes ≤ maxPrivateArtifactBytes

def PrivateArtifactPolicy.new (maxBytes : ℕ) : Except PrivateArtifactError PrivateArtifactPolicy :=
  if h : maxBytes = 0 ∨ maxPrivateArtifactBytes < maxBytes then .error .invalidSizeLimit
  else .ok ⟨maxBytes, by omega⟩

/-! ### Paths -/

inductive Component
  | rootDir
  | curDir
  | parentDir
  | normal (name : Name)
  deriving DecidableEq

abbrev Path := List Component

def normalAbsolutePath (path : Path) : Bool :=
  path.head? = some .rootDir && path.all fun part =>
    match part with
    | .rootDir | .normal _ => true
    | .curDir | .parentDir => false

/-- The path's ancestors after itself, the root directory last. -/
def ancestors (path : Path) : List Path :=
  path.inits.reverse.tail.dropLast

def stripRoot (root input : Path) : Option Path :=
  if root.isPrefixOf input then some (input.drop root.length) else none

def normalNames : Path → Except PrivateArtifactError (List Name)
  | [] => .ok []
  | .normal name :: rest => (normalNames rest).map (name :: ·)
  | _ :: _ => .error .inputPathInvalid

/-! ### System calls -/

inductive Call
  | lstat (path : Path)
  | openRoot (path : Path)
  | openAt (parent : File) (name : Name) (directory : Bool)
  | fstat (file : File)
  | readAt (file : File) (offset size : ℕ)

def Call.isRead : Call → Bool
  | .readAt .. => true
  | _ => false

structure Environment (δ : Type) where
  euid : ℕ
  act : Env FileSystem File
  resolve : ℕ → FileSystem → Path → Option FileIdentity
  fails : ℕ → Bool
  chunk : ℕ → ℕ
  sha256 : List UInt8 → δ

abbrev Syscalls := Prog FileSystem Call File PrivateArtifactError

inductive Errno
  | loop
  | other

variable {δ : Type} [DecidableEq δ] (env : Environment δ)

namespace Environment

def inodeAt (time : ℕ) (fs : FileSystem) (identity : Option FileIdentity) : Option (FileIdentity × Inode) :=
  if env.fails time then none else identity.bind fun identity => (fs.inode identity).map (identity, ·)

/-- `open` with `O_NOFOLLOW`, and `O_DIRECTORY` where a directory is asked for. -/
def openResult (found : Option (FileIdentity × Inode)) (directory : Bool) : Except Errno File :=
  match found with
  | none => .error .other
  | some (identity, inode) =>
    if directory then
      if inode.kind = .directory then .ok ⟨identity, inode.generation⟩ else .error .other
    else if inode.kind = .symlink then .error .loop
    else .ok ⟨identity, inode.generation⟩

def openRoot (path : Path) (error : PrivateArtifactError) : Syscalls File :=
  acquire env.act (.openRoot path) fun time fs =>
    (openResult (env.inodeAt time fs (env.resolve time fs path)) true).mapError fun _ => error

/-- A name with a zero byte never reaches the kernel. -/
def openAt (parent : File) (name : Name) (directory : Bool) (error : Errno → PrivateArtifactError) : Syscalls File := do
  let _ ← ensure (name.contains 0 = false) (error .other)
  acquire env.act (.openAt parent name directory) fun time fs =>
    (openResult (env.inodeAt time fs (fs.find parent.identity name)) directory).mapError error

def openDirectory (parent : File) (name : Name) (error : PrivateArtifactError) : Syscalls File :=
  env.openAt parent name true fun _ => error

def openRegular (parent : File) (name : Name) (error : Errno → PrivateArtifactError) : Syscalls File :=
  env.openAt parent name false error

def symlinkMetadata (path : Path) (error : PrivateArtifactError) : Syscalls Metadata := do
  let (time, fs) ← call env.act (.lstat path)
  match env.inodeAt time fs (env.resolve time fs path) with
  | none => fail error
  | some (identity, inode) => pure (inode.metadata identity)

def metadata (file : File) (error : PrivateArtifactError) :
    Syscalls { metadata : Metadata // metadata.identity = file.identity } := do
  let (time, fs) ← call env.act (.fstat file)
  match env.inodeAt time fs (some file.identity) with
  | none => fail error
  | some (_, inode) => pure ⟨inode.metadata file.identity, rfl⟩

/-- At least one byte comes back unless the offset is at the end of the file. -/
def readAt (file : File) (size offset : ℕ) (error : PrivateArtifactError) : Syscalls (List UInt8) := do
  let (time, fs) ← call env.act (.readAt file offset size)
  match env.inodeAt time fs (some file.identity) with
  | none => fail error
  | some (_, inode) => pure ((inode.content.drop offset).take (min size (env.chunk time + 1)))

/-! ### What is private -/

def privateOwner (uid : ℕ) : Bool := uid == env.euid

def trustedAncestorOwner (uid : ℕ) : Bool := uid == 0 || env.privateOwner uid

def privateMode (mode : UInt32) : Bool := mode &&& 0o077 == 0

def privateDirectory (metadata : Metadata) : Bool :=
  metadata.kind = .directory && env.privateOwner metadata.uid && privateMode metadata.mode

def safeRootAncestor (metadata : Metadata) : Bool :=
  metadata.kind = .directory && env.trustedAncestorOwner metadata.uid &&
    (metadata.mode &&& 0o022 == 0 || metadata.mode &&& 0o1000 != 0)

def classifyFileMetadata (metadata : Metadata) (policy : PrivateArtifactPolicy) : Except PrivateArtifactError Unit :=
  if metadata.kind = .symlink then .error .finalSymlink
  else if metadata.kind ≠ .regular then .error .inputNotRegular
  else if ¬env.privateOwner metadata.uid then .error .inputOwnershipMismatch
  else if ¬privateMode metadata.mode then .error .inputModeMismatch
  else if metadata.links ≠ 1 then .error .inputHardlinkAmbiguous
  else if metadata.length > policy.maxBytes then .error .inputSizeInvalid
  else .ok ()

def checkAncestors : List Path → Syscalls Unit
  | [] => pure ()
  | ancestor :: rest => do
    let metadata ← env.symlinkMetadata ancestor .unsafeRootAncestor
    let _ ← ensure (env.safeRootAncestor metadata = true) .unsafeRootAncestor
    checkAncestors rest

def validateRootAndAncestors (root : Path) : Syscalls Metadata := do
  let _ ← ensure (normalAbsolutePath root = true) .rootPathInvalid
  let metadata ← env.symlinkMetadata root .rootUnavailable
  let _ ← ensure (metadata.kind = .directory) .rootUnavailable
  let _ ← ensure (env.privateOwner metadata.uid = true) .rootOwnershipMismatch
  let _ ← ensure (privateMode metadata.mode = true) .rootModeMismatch
  env.checkAncestors (ancestors root)
  pure metadata

end Environment

/-! ### The held artifact -/

structure ArtifactSnapshot where
  identity : FileIdentity
  length : ℕ
  mode : UInt32
  uid : ℕ
  links : ℕ
  times : Timestamps
  deriving DecidableEq

def ArtifactSnapshot.fromMetadata (metadata : Metadata) : ArtifactSnapshot :=
  ⟨metadata.identity, metadata.length, metadata.mode, metadata.uid, metadata.links, metadata.times⟩

structure HeldDirectory where
  name : Name
  file : File
  identity : FileIdentity
  same : identity = file.identity

structure HeldArtifact where
  rootPath : Path
  root : File
  rootIdentity : FileIdentity
  rootSame : rootIdentity = root.identity
  directories : List HeldDirectory
  fileName : Name
  file : File
  snapshot : ArtifactSnapshot
  fileSame : snapshot.identity = file.identity
  policy : PrivateArtifactPolicy

structure ArtifactProof (δ : Type) where
  byteCount : ℕ
  sha256 : δ

structure DescriptorBoundArtifact (δ : Type) where
  proof : ArtifactProof δ
  inner : HeldArtifact

structure ArtifactRead (δ : Type) where
  bytes : List UInt8
  proof : ArtifactProof δ

/-- The descriptor of the innermost directory. -/
def lastParent (root : File) (directories : List HeldDirectory) : File :=
  (directories.getLast?.map HeldDirectory.file).getD root

namespace Environment

/-- The comparison made before the bytes are read and again after. -/
def unchanged (file : File) (snapshot : ArtifactSnapshot) (policy : PrivateArtifactPolicy) : Syscalls Unit := do
  let metadata ← env.metadata file .inputReadFailed
  ofExcept (env.classifyFileMetadata metadata policy)
  let now := ArtifactSnapshot.fromMetadata metadata
  let _ ← ensure (now.identity = snapshot.identity) .inputIdentityDrift
  let _ ← ensure (snapshot.length ≤ now.length) .inputTruncated
  let _ ← ensure (now.length ≤ snapshot.length) .inputGrew
  let _ ← ensure (now = snapshot) .inputMetadataDrift
  pure ()

/-- The read loop; every round reads a byte or fails, so `length` rounds are enough. -/
def readBytes (file : File) (length : ℕ) : ℕ → List UInt8 → Syscalls (List UInt8)
  | 0, bytes => pure bytes
  | rounds + 1, bytes =>
    if bytes.length < length then do
      let read ← env.readAt file (length - bytes.length) bytes.length .inputReadFailed
      let _ ← ensure (read ≠ []) .inputTruncated
      readBytes file length rounds (bytes ++ read)
    else pure bytes

def readExactSnapshot (file : File) (snapshot : ArtifactSnapshot) (policy : PrivateArtifactPolicy) :
    Syscalls (List UInt8) := do
  env.unchanged file snapshot policy
  let bytes ← env.readBytes file snapshot.length snapshot.length []
  let sentinel ← env.readAt file 1 snapshot.length .inputReadFailed
  let _ ← ensure (sentinel = []) .inputGrew
  env.unchanged file snapshot policy
  pure bytes

/-- The descriptor opened by name is closed at the end of the round. -/
def revalidateDirectories (parent : File) : List HeldDirectory → Syscalls Unit
  | [] => pure ()
  | directory :: rest => do
    let held ← env.metadata directory.file .inputAncestorUnsafe
    scope do
      let file ← env.openDirectory parent directory.name .inputAncestorUnsafe
      let named ← env.metadata file .inputAncestorUnsafe
      let _ ← ensure (env.privateDirectory held = true ∧ env.privateDirectory named = true ∧
        held.val.identity = directory.identity ∧ named.val.identity = directory.identity) .descriptorPathDisagreement
      pure ()
    revalidateDirectories directory.file rest

def revalidateNamespace (artifact : HeldArtifact) : Syscalls Unit := do
  let rootMetadata ← env.validateRootAndAncestors artifact.rootPath
  let heldRoot ← env.metadata artifact.root .rootUnavailable
  let _ ← ensure (env.privateDirectory heldRoot = true ∧ heldRoot.val.identity = artifact.rootIdentity ∧
    rootMetadata.identity = artifact.rootIdentity) .descriptorPathDisagreement
  env.revalidateDirectories artifact.root artifact.directories
  let held ← env.metadata artifact.file .inputUnavailable
  ofExcept (env.classifyFileMetadata held artifact.policy)
  scope do
    let file ← env.openRegular (lastParent artifact.root artifact.directories) artifact.fileName
      fun _ => .descriptorPathDisagreement
    let named ← env.metadata file .descriptorPathDisagreement
    ofExcept (env.classifyFileMetadata named artifact.policy)
    let _ ← ensure (held.val.identity = artifact.snapshot.identity ∧
      named.val.identity = artifact.snapshot.identity) .descriptorPathDisagreement
    pure ()

def openDirectories (parent : File) : List Name → Syscalls (List HeldDirectory)
  | [] => pure []
  | name :: rest => do
    let directory ← env.openDirectory parent name .inputAncestorUnsafe
    let metadata ← env.metadata directory .inputAncestorUnsafe
    let _ ← ensure (env.privateDirectory metadata = true) .inputAncestorUnsafe
    let inner ← openDirectories directory rest
    pure (⟨name, directory, metadata.val.identity, metadata.property⟩ :: inner)

/-- The names of the path below the root: the directories and the file. -/
def artifactNames (root input : Path) : Except PrivateArtifactError (List Name × Name) :=
  match stripRoot root input with
  | none => .error .inputOutsideRoot
  | some relative =>
    match normalNames relative with
    | .error error => .error error
    | .ok names =>
      match names.getLast? with
      | none => .error .inputPathInvalid
      | some fileName => .ok (names.dropLast, fileName)

def openHashed (rootPath inputPath : Path) (policy : PrivateArtifactPolicy) :
    Syscalls (HeldArtifact × ArtifactProof δ × List UInt8) := releaseOnError do
  let rootMetadata ← env.validateRootAndAncestors rootPath
  let _ ← ensure (normalAbsolutePath inputPath = true) .inputPathInvalid
  let (directoryNames, fileName) ← ofExcept (artifactNames rootPath inputPath)
  let root ← env.openRoot rootPath .rootUnavailable
  let heldRoot ← env.metadata root .rootUnavailable
  let sameRoot ← ensure (env.privateDirectory heldRoot = true ∧ heldRoot.val.identity = rootMetadata.identity)
    .rootUnavailable
  let directories ← env.openDirectories root directoryNames
  let file ← env.openRegular (lastParent root directories) fileName fun
    | .loop => .finalSymlink
    | .other => .inputUnavailable
  let metadata ← env.metadata file .inputUnavailable
  ofExcept (env.classifyFileMetadata metadata policy)
  let snapshot := ArtifactSnapshot.fromMetadata metadata
  let bytes ← env.readExactSnapshot file snapshot policy
  let artifact : HeldArtifact :=
    { rootPath, root, rootIdentity := rootMetadata.identity,
      rootSame := sameRoot.down.2.symm.trans heldRoot.property, directories, fileName, file, snapshot,
      fileSame := metadata.property, policy }
  env.revalidateNamespace artifact
  pure (artifact, ⟨snapshot.length, env.sha256 bytes⟩, bytes)

/-- `DescriptorBoundArtifact::open`. -/
def openArtifact (rootPath inputPath : Path) (policy : PrivateArtifactPolicy) : Syscalls (DescriptorBoundArtifact δ) := do
  let (inner, proof, _) ← env.openHashed rootPath inputPath policy
  pure ⟨proof, inner⟩

/-- `DescriptorBoundArtifact::read`. -/
def read (artifact : DescriptorBoundArtifact δ) : Syscalls (ArtifactRead δ) := do
  env.revalidateNamespace artifact.inner
  let bytes ← env.readExactSnapshot artifact.inner.file artifact.inner.snapshot artifact.inner.policy
  let _ ← ensure (env.sha256 bytes = artifact.proof.sha256) .inputContentDrift
  env.revalidateNamespace artifact.inner
  pure ⟨bytes, artifact.proof⟩

end Environment

end McpToolkit.Artifact
