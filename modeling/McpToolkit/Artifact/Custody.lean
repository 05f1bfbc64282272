import McpToolkit.Artifact.HeldArtifact

/-!
# McpToolkit.Artifact.Custody — what a successful read has seen

Each function gets one statement of what it does with the descriptors it holds and of what its own system calls found
(`does_…`).  The argument is in `SeenLink`: a name is opened while the admitted descriptor is held, so if the two show
one identity they are one inode (`Holds.eq_of_identity`), and the name was bound to it when it was opened.
-/

namespace McpToolkit.Artifact

open List Environment
open FileSystem (Holds)
open Lib.Interference Lib.Interference.Prog

variable {δ : Type} {env : Environment δ} {held : List File}

abbrev Trace := List (Call × FileSystem)

def FileSystem.Shows (fs : FileSystem) (file : File) (metadata : Metadata) : Prop :=
  ∃ inode, fs.inode file.identity = some inode ∧ metadata = inode.metadata file.identity

def Quiet (own : Trace) : Prop := ∀ event ∈ own, event.1.isRead = false

/-- A name was seen bound to the inode of `child`, and that inode was seen to be proper. -/
structure SeenLink (proper : Metadata → Prop) (parent : File) (name : Name) (child : File) (own : Trace) : Prop where
  bound : ∃ directory fs, (Call.openAt parent name directory, fs) ∈ own ∧ fs.Binds parent name child
  proper : ∃ fs metadata, (Call.fstat child, fs) ∈ own ∧ fs.Shows child metadata ∧ proper metadata

/-- Every directory of the list was seen under its name in the one before, private. -/
def Environment.SeenDirectories (env : Environment δ) (parent : File) (own : Trace) : List HeldDirectory → Prop
  | [] => True
  | directory :: rest =>
    SeenLink (fun metadata => env.privateDirectory metadata = true) parent directory.name directory.file own ∧
      env.SeenDirectories directory.file own rest

/-- Regular, owned by the effective user, closed to everyone else, with one link. -/
structure Environment.ProperFile (env : Environment δ) (metadata : Metadata) : Prop where
  regular : metadata.kind = .regular
  owner : metadata.uid = env.euid
  mode : privateMode metadata.mode = true
  single : metadata.links = 1

structure Environment.Seen (env : Environment δ) (artifact : HeldArtifact) (own : Trace) : Prop where
  quiet : Quiet own
  root : ∃ fs metadata, (Call.fstat artifact.root, fs) ∈ own ∧ fs.Shows artifact.root metadata ∧
    env.privateDirectory metadata = true
  directories : env.SeenDirectories artifact.root own artifact.directories
  file : SeenLink env.ProperFile (lastParent artifact.root artifact.directories) artifact.fileName artifact.file own

/-! ### One call -/

section Calls

theorem Environment.inodeAt_eq_some {time : ℕ} {fs : FileSystem} {identity : Option FileIdentity}
    {found : FileIdentity × Inode} (h : env.inodeAt time fs identity = some found) :
    identity = some found.1 ∧ fs.inode found.1 = some found.2 := by
  unfold inodeAt at h
  split_ifs at h
  obtain ⟨i, rfl, hi⟩ := Option.bind_eq_some_iff.mp h
  obtain ⟨inode, hinode, rfl⟩ := Option.map_eq_some_iff.mp hi
  exact ⟨rfl, hinode⟩

theorem openResult_eq_ok {found : Option (FileIdentity × Inode)} {directory : Bool} {file : File}
    (h : openResult found directory = .ok file) :
    ∃ inode, found = some (file.identity, inode) ∧ inode.generation = file.generation := by
  unfold openResult at h
  split at h
  · cases h
  · split_ifs at h <;> cases h <;> exact ⟨_, rfl, rfl⟩

theorem opened_of_ok {time : ℕ} {fs : FileSystem} {identity : Option FileIdentity} {directory : Bool} {file : File}
    {error : Errno → PrivateArtifactError}
    (h : (openResult (env.inodeAt time fs identity) directory).mapError error = .ok file) :
    identity = some file.identity ∧ fs.Holds file := by
  have hok : openResult (env.inodeAt time fs identity) directory = .ok file := by
    cases hr : openResult (env.inodeAt time fs identity) directory with
    | error e =>
      rw [hr] at h
      cases h
    | ok f =>
      rw [hr] at h
      cases h
      rfl
  obtain ⟨inode, hfound, hgen⟩ := openResult_eq_ok hok
  obtain ⟨hid, hinode⟩ := env.inodeAt_eq_some hfound
  exact ⟨hid, inode, hinode, hgen⟩

variable (henv : Respects Holds env.act)
include henv

theorem does_metadata (file : File) (error : PrivateArtifactError) :
    Does Holds (env.metadata file error) held fun metadata held' own =>
      held' = held ∧ ∃ fs, own = [(.fstat file, fs)] ∧ (∀ d ∈ held, fs.Holds d) ∧ fs.Shows file metadata := by
  apply does_bind (does_call henv _)
  rintro ⟨time, fs⟩ held' own - ⟨rfl, rfl, hheld⟩
  dsimp only
  split
  · exact does_fail _
  · next i inode hfound =>
    obtain ⟨heq, hinode⟩ := env.inodeAt_eq_some hfound
    injection heq with heq
    subst heq
    exact does_pure ⟨rfl, fs, rfl, hheld, inode, hinode, rfl⟩

theorem does_symlinkMetadata (path : Path) (error : PrivateArtifactError) :
    Does Holds (env.symlinkMetadata path error) held fun _ held' own => held' = held ∧ Quiet own := by
  apply does_bind (does_call henv _)
  rintro ⟨time, fs⟩ held' own - ⟨rfl, rfl, hheld⟩
  dsimp only
  split
  · exact does_fail _
  · refine does_pure ⟨rfl, ?_⟩
    intro event hevent
    rw [mem_singleton.mp hevent]
    rfl

theorem does_readAt (file : File) (size offset : ℕ) (error : PrivateArtifactError) :
    Does Holds (env.readAt file size offset error) held fun bytes held' _ =>
      held' = held ∧ bytes.length ≤ size := by
  apply does_bind (does_call henv _)
  rintro ⟨time, fs⟩ held' own - ⟨rfl, rfl, hheld⟩
  dsimp only
  split
  · exact does_fail _
  · refine does_pure ⟨rfl, ?_⟩
    rw [length_take]
    omega

theorem does_openRoot (path : Path) (error : PrivateArtifactError) :
    Does Holds (env.openRoot path error) held fun file held' _ => held' = file :: held := by
  refine (does_acquire henv _ ?_).mono fun _ _ _ h => h.1
  intro time fs file hpick
  exact (opened_of_ok hpick).2

theorem does_openAt (parent : File) (name : Name) (directory : Bool) (error : Errno → PrivateArtifactError) :
    Does Holds (env.openAt parent name directory error) held fun file held' own =>
      held' = file :: held ∧ ∃ fs, own = [(.openAt parent name directory, fs)] ∧ (∀ d ∈ held, fs.Holds d) ∧
        fs.Holds file ∧ fs.find parent.identity name = some file.identity := by
  apply does_ensure_bind
  intro _
  have hpick : ∀ time fs file, (openResult (env.inodeAt time fs (fs.find parent.identity name))
      directory).mapError error = .ok file → fs.Holds file := fun _ _ _ h => (opened_of_ok h).2
  apply (does_acquire henv _ hpick).mono
  rintro file held' own ⟨rfl, time, fs, rfl, hopen, hheld⟩
  obtain ⟨hfind, hfile⟩ := opened_of_ok hopen
  exact ⟨rfl, fs, rfl, hheld, hfile, hfind⟩

end Calls

/-! ### Reading -/

section Reading

theorem classifyFileMetadata_ok {metadata : Metadata} {policy : PrivateArtifactPolicy} {u : Unit}
    (h : env.classifyFileMetadata metadata policy = .ok u) :
    env.ProperFile metadata ∧ metadata.length ≤ policy.maxBytes := by
  unfold classifyFileMetadata at h
  split_ifs at h with h₁ h₂ h₃ h₄ h₅ h₆
  exact ⟨⟨not_not.mp h₂, eq_of_beq h₃, h₄, not_not.mp h₅⟩, Nat.not_lt.mp h₆⟩

variable (henv : Respects Holds env.act)
include henv

theorem does_unchanged (file : File) (snapshot : ArtifactSnapshot) (policy : PrivateArtifactPolicy) :
    Does Holds (env.unchanged file snapshot policy) held fun _ held' _ =>
      held' = held ∧ snapshot.length ≤ policy.maxBytes := by
  apply does_bind (does_metadata henv file _)
  rintro ⟨metadata, hid⟩ held' own - ⟨rfl, -⟩
  apply does_ofExcept_bind
  intro u hclass
  apply does_ensure_bind
  intro _
  apply does_ensure_bind
  intro _
  apply does_ensure_bind
  intro _
  apply does_ensure_bind
  rintro rfl
  exact does_pure ⟨rfl, (classifyFileMetadata_ok hclass).2⟩

theorem does_readBytes (file : File) (length rounds : ℕ) (bytes : List UInt8) (hle : bytes.length ≤ length)
    (hge : length ≤ bytes.length + rounds) :
    Does Holds (env.readBytes file length rounds bytes) held fun all held' _ =>
      held' = held ∧ all.length = length := by
  induction rounds generalizing bytes with
  | zero => exact does_pure ⟨rfl, by omega⟩
  | succ rounds ih =>
    unfold readBytes
    split_ifs with hmore
    · apply does_bind (does_readAt henv file _ _ _)
      rintro read held' own - ⟨rfl, hread⟩
      apply does_ensure_bind
      intro hsome
      have hpos : 0 < read.length := length_pos_of_ne_nil hsome
      apply ih
      · rw [length_append]
        omega
      · rw [length_append]
        omega
    · exact does_pure ⟨rfl, by omega⟩

theorem does_readExactSnapshot (file : File) (snapshot : ArtifactSnapshot) (policy : PrivateArtifactPolicy) :
    Does Holds (env.readExactSnapshot file snapshot policy) held fun bytes held' _ =>
      held' = held ∧ bytes.length = snapshot.length ∧ snapshot.length ≤ policy.maxBytes := by
  apply does_bind (does_unchanged henv file snapshot policy)
  rintro _ held' _ - ⟨rfl, hmax⟩
  apply does_bind (does_readBytes henv file snapshot.length snapshot.length [] (Nat.zero_le _) (by simp))
  rintro bytes held' _ - ⟨rfl, hlen⟩
  apply does_bind (does_readAt henv file _ _ _)
  rintro sentinel held' _ - ⟨rfl, -⟩
  apply does_ensure_bind
  intro _
  apply does_bind (does_unchanged henv file snapshot policy)
  rintro _ held' _ - ⟨rfl, -⟩
  exact does_pure ⟨rfl, hlen, hmax⟩

end Reading

/-! ### Revalidating the namespace -/

section Namespace

variable {parent : File} {name : Name} {own own' : Trace} {child file : File} {directory : Bool} {fs : FileSystem}

theorem Quiet.append (h : Quiet own) (h' : Quiet own') : Quiet (own ++ own') := by
  intro event hevent
  rcases mem_append.mp hevent with hmem | hmem
  · exact h event hmem
  · exact h' event hmem

theorem SeenLink.mono {proper : Metadata → Prop}
    (h : SeenLink proper parent name child own) (hsub : own ⊆ own') : SeenLink proper parent name child own' := by
  obtain ⟨⟨directory, fs, hmem, hbinds⟩, fs', metadata, hmem', hshows⟩ := h
  exact ⟨⟨directory, fs, hsub hmem, hbinds⟩, fs', metadata, hsub hmem', hshows⟩

theorem Environment.SeenDirectories.mono (hsub : own ⊆ own') :
    ∀ {directories : List HeldDirectory} {parent : File}, env.SeenDirectories parent own directories →
      env.SeenDirectories parent own' directories
  | [], _, _ => trivial
  | _ :: _, _, ⟨hlink, hrest⟩ => ⟨hlink.mono hsub, hrest.mono hsub⟩

theorem SeenLink.of_open {proper : Metadata → Prop}
    {fs' : FileSystem} {metadata : Metadata} (hparent : fs.Holds parent) (hchild : fs.Holds child)
    (hfile : fs.Holds file) (hfind : fs.find parent.identity name = some file.identity)
    (hid : file.identity = child.identity) (hshows : fs'.Shows file metadata) (hproper : proper metadata) :
    SeenLink proper parent name child [(.openAt parent name directory, fs), (.fstat file, fs')] := by
  obtain rfl := hfile.eq_of_identity hchild hid
  obtain ⟨inode, hinode, hentry⟩ := Option.bind_eq_some_iff.mp hfind
  refine ⟨⟨directory, fs, mem_cons_self, hparent, hfile, inode, hinode, hentry⟩, fs', metadata, ?_, hshows, hproper⟩
  exact mem_cons_of_mem _ mem_cons_self

theorem quiet_open {fs' : FileSystem} : Quiet [(.openAt parent name directory, fs), (.fstat file, fs')] := by
  intro event hevent
  rcases mem_cons.mp hevent with rfl | hevent
  · rfl
  · rw [mem_singleton.mp hevent]
    rfl

theorem quiet_fstat : Quiet [(.fstat file, fs)] := by
  intro event hevent
  rw [mem_singleton.mp hevent]
  rfl

/-- Every descriptor the artifact keeps. -/
def HeldArtifact.descriptors (artifact : HeldArtifact) : List File :=
  artifact.file :: artifact.root :: artifact.directories.map HeldDirectory.file

theorem lastParent_mem (root : File) (directories : List HeldDirectory) :
    lastParent root directories ∈ root :: directories.map HeldDirectory.file := by
  unfold lastParent
  cases h : directories.getLast? with
  | none => exact mem_cons_self
  | some directory =>
    exact mem_cons_of_mem _ (mem_map_of_mem (mem_of_getLast? h))

variable (henv : Respects Holds env.act)
include henv

theorem does_checkAncestors (paths : List Path) :
    Does Holds (env.checkAncestors paths) held fun _ held' own => held' = held ∧ Quiet own := by
  induction paths with
  | nil => exact does_pure ⟨rfl, fun _ h => absurd h (not_mem_nil)⟩
  | cons path rest ih =>
    apply does_bind (does_symlinkMetadata henv path _)
    rintro metadata held' own - ⟨rfl, hquiet⟩
    apply does_ensure_bind
    intro _
    exact ih.mono fun _ _ own' h => ⟨h.1, hquiet.append h.2⟩

theorem does_validateRootAndAncestors (root : Path) :
    Does Holds (env.validateRootAndAncestors root) held fun _ held' own => held' = held ∧ Quiet own := by
  apply does_ensure_bind
  intro _
  apply does_bind (does_symlinkMetadata henv root _)
  rintro metadata held' own - ⟨rfl, hquiet⟩
  apply does_ensure_bind
  intro _
  apply does_ensure_bind
  intro _
  apply does_ensure_bind
  intro _
  apply does_bind (does_checkAncestors henv _)
  rintro _ held' own' - ⟨rfl, hquiet'⟩
  refine does_pure ⟨rfl, ?_⟩
  rw [append_nil]
  exact hquiet.append hquiet'

/-- A name is opened, its metadata checked, and the descriptor closed again. -/
theorem does_openShown (proper : Metadata → Prop)
    {error : Errno → PrivateArtifactError} {error' : PrivateArtifactError}
    {check : (file : File) → { metadata : Metadata // metadata.identity = file.identity } → Syscalls Unit}
    (hparent : parent ∈ held) (hchild : child ∈ held)
    (hcheck : ∀ file metadata held', Does Holds (check file metadata) held' fun _ _ own =>
      own = [] ∧ metadata.val.identity = child.identity ∧ proper metadata.val) :
    Does Holds (scope do
      let file ← env.openAt parent name directory error
      let metadata ← env.metadata file error'
      check file metadata) held fun _ held' own =>
        held' = held ∧ Quiet own ∧ SeenLink proper parent name child own := by
  have hbody : Does Holds (do
      let file ← env.openAt parent name directory error
      let metadata ← env.metadata file error'
      check file metadata) held fun _ _ own => Quiet own ∧ SeenLink proper parent name child own := by
    apply does_bind (does_openAt henv parent name directory error)
    rintro file held' own - ⟨rfl, fs, rfl, hheld, hfile, hfind⟩
    apply does_bind (does_metadata henv file error')
    rintro metadata held' own - ⟨rfl, fs', rfl, -, hshows⟩
    apply (hcheck file metadata _).mono
    rintro _ _ own ⟨rfl, hid, hproper⟩
    refine ⟨quiet_open, SeenLink.of_open (hheld parent hparent) (hheld child hchild) hfile hfind ?_ hshows hproper⟩
    exact metadata.property.symm.trans hid
  apply (does_scope hbody).mono
  rintro _ held' own ⟨rfl, inner, -, h⟩
  exact ⟨rfl, h⟩

theorem does_revalidateDirectories (directories : List HeldDirectory) (parent : File) (hparent : parent ∈ held)
    (hheld : ∀ directory ∈ directories, directory.file ∈ held) :
    Does Holds (env.revalidateDirectories parent directories) held fun _ held' own =>
      held' = held ∧ Quiet own ∧ env.SeenDirectories parent own directories := by
  induction directories generalizing parent with
  | nil => exact does_pure ⟨rfl, fun _ h => absurd h (not_mem_nil), trivial⟩
  | cons directory rest ih =>
    have hdirectory := hheld directory mem_cons_self
    apply does_bind (does_metadata henv directory.file _)
    rintro shown held' own - ⟨rfl, fs, rfl, -⟩
    apply does_bind (does_openShown henv (fun metadata => env.privateDirectory metadata = true) hparent hdirectory _)
    · rintro _ held'' own - ⟨rfl, hquiet, hlink⟩
      apply (ih directory.file hdirectory fun d hd => hheld d (mem_cons_of_mem _ hd)).mono
      rintro _ held' own' ⟨rfl, hquiet', hseen⟩
      refine ⟨rfl, quiet_fstat.append (hquiet.append hquiet'), hlink.mono ?_, hseen.mono ?_⟩
      · exact fun event hevent => mem_append_right _ (mem_append_left _ hevent)
      · exact fun event hevent => mem_append_right _ (mem_append_right _ hevent)
    · intro file named held'
      apply does_ensure_bind
      rintro ⟨-, hprivate, -, hid⟩
      exact does_pure ⟨rfl, hid.trans directory.same, hprivate⟩

theorem does_revalidateNamespace {artifact : HeldArtifact} (hheld : artifact.descriptors ⊆ held) :
    Does Holds (env.revalidateNamespace artifact) held fun _ held' own =>
      held' = held ∧ env.Seen artifact own := by
  have hfile : artifact.file ∈ held := hheld mem_cons_self
  have hdirectories : artifact.root :: artifact.directories.map HeldDirectory.file ⊆ held := fun d hd =>
    hheld (mem_cons_of_mem _ hd)
  apply does_bind (does_validateRootAndAncestors henv _)
  rintro rootMetadata held' own₁ - ⟨rfl, hquiet₁⟩
  apply does_bind (does_metadata henv _ _)
  rintro heldRoot held' own - ⟨rfl, fs₁, rfl, -, hroot⟩
  apply does_ensure_bind
  rintro ⟨hprivate, -, -⟩
  apply does_bind (does_revalidateDirectories henv artifact.directories artifact.root
    (hdirectories mem_cons_self)
    fun d hd => hdirectories (mem_cons_of_mem _ (mem_map_of_mem hd)))
  rintro _ held' own₂ - ⟨rfl, hquiet₂, hseen⟩
  apply does_bind (does_metadata henv _ _)
  rintro shown held' own - ⟨rfl, fs₂, rfl, -⟩
  apply does_ofExcept_bind
  intro _ _
  apply (does_openShown henv env.ProperFile (hdirectories (lastParent_mem _ _)) hfile _).mono
  · rintro _ held' own₃ ⟨rfl, hquiet₃, hlink⟩
    refine ⟨rfl, ?_, ⟨fs₁, heldRoot, ?_, hroot, hprivate⟩, hseen.mono ?_, hlink.mono ?_⟩
    · exact hquiet₁.append (quiet_fstat.append (hquiet₂.append (quiet_fstat.append hquiet₃)))
    · exact mem_append_right _ mem_cons_self
    · intro event hevent
      exact mem_append_right _ (mem_append_right _ (mem_append_left _ hevent))
    · intro event hevent
      exact mem_append_right _ (mem_append_right _ (mem_append_right _ (mem_append_right _ hevent)))
  · intro file named held'
    apply does_ofExcept_bind
    intro _ hclass
    apply does_ensure_bind
    rintro ⟨-, hid⟩
    exact does_pure ⟨rfl, hid.trans artifact.fileSame, (classifyFileMetadata_ok hclass).1⟩

end Namespace

/-! ### Admission and reads -/

section Custody

/-- What a successful `openHashed` has established, `held` being the descriptors open after it. -/
structure Environment.Admitted (env : Environment δ) (rootPath inputPath : Path) (policy : PrivateArtifactPolicy)
    (artifact : HeldArtifact) (proof : ArtifactProof δ) (bytes : List UInt8) (held : List File) : Prop where
  keeps : artifact.descriptors ⊆ held
  names : inputPath = rootPath ++ ((artifact.directories.map HeldDirectory.name) ++ [artifact.fileName]).map .normal
  bound : artifact.policy = policy
  length : artifact.snapshot.length = proof.byteCount
  bounded : proof.byteCount ≤ policy.maxBytes
  hash : proof.sha256 = env.sha256 bytes

theorem normalNames_ok {path : Path} {names : List Name} (h : normalNames path = .ok names) :
    path = names.map .normal := by
  induction path generalizing names with
  | nil =>
    cases h
    rfl
  | cons part rest ih =>
    cases part with
    | normal name =>
      cases hrest : normalNames rest with
      | error e =>
        rw [normalNames, hrest] at h
        cases h
      | ok names' =>
        rw [normalNames, hrest] at h
        cases h
        rw [ih hrest]
        rfl
    | rootDir => cases h
    | curDir => cases h
    | parentDir => cases h

theorem artifactNames_ok {rootPath inputPath : Path} {directoryNames : List Name} {fileName : Name}
    (h : artifactNames rootPath inputPath = .ok (directoryNames, fileName)) :
    inputPath = rootPath ++ (directoryNames ++ [fileName]).map .normal := by
  unfold artifactNames at h
  split at h
  case h_1 => cases h
  case h_2 relative hstrip =>
    split at h
    case h_1 => cases h
    case h_2 names hnames =>
      split at h
      case h_1 => cases h
      case h_2 last hlast =>
        cases h
        rw [dropLast_append_getLast? fileName hlast, ← normalNames_ok hnames]
        unfold stripRoot at hstrip
        split_ifs at hstrip with hroot
        cases hstrip
        obtain ⟨rest, rfl⟩ := List.isPrefixOf_iff_prefix.mp hroot
        rw [drop_left]

theorem does_openDirectories (henv : Respects Holds env.act) (names : List Name) (parent : File) :
    Does Holds (env.openDirectories parent names) held fun directories held' _ =>
      directories.map HeldDirectory.file ⊆ held' ∧ directories.map HeldDirectory.name = names := by
  induction names generalizing parent held with
  | nil => exact does_pure ⟨nil_subset _, rfl⟩
  | cons name rest ih =>
    apply does_bind (does_openAt henv parent name true _)
    rintro directory held' own - ⟨rfl, -⟩
    apply does_bind (does_metadata henv directory _)
    rintro metadata held' own - ⟨rfl, -⟩
    apply does_ensure_bind
    intro _
    apply does_bind (ih directory)
    rintro inner held' own hsub ⟨hinner, hnames⟩
    refine does_pure ⟨?_, by rw [map_cons, hnames]⟩
    exact cons_subset.mpr ⟨hsub.subset mem_cons_self, hinner⟩

/-- Whatever is opened was admitted, by the descriptors that are still held. -/
theorem does_openHashed (henv : Respects Holds env.act) (rootPath inputPath : Path)
    (policy : PrivateArtifactPolicy) :
    Does Holds (env.openHashed rootPath inputPath policy) held fun r held' _ =>
      env.Admitted rootPath inputPath policy r.1 r.2.1 r.2.2 held' := by
  apply does_releaseOnError
  apply does_bind (does_validateRootAndAncestors henv rootPath)
  rintro rootMetadata held' own - ⟨rfl, -⟩
  apply does_ensure_bind
  intro _
  apply does_ofExcept_bind
  rintro ⟨directoryNames, fileName⟩ hnames
  apply does_bind (does_openRoot henv rootPath _)
  rintro root held' own - rfl
  apply does_bind (does_metadata henv root _)
  rintro heldRoot held' own - ⟨rfl, -⟩
  apply does_ensure_bind
  intro hsame
  apply does_bind (does_openDirectories henv directoryNames root)
  rintro directories held₁ own hsub₁ ⟨hdirectories, hdirectoryNames⟩
  apply does_bind (does_openAt henv _ fileName false _)
  rintro file held' own - ⟨rfl, -⟩
  apply does_bind (does_metadata henv file _)
  rintro metadata held' own - ⟨rfl, -⟩
  apply does_ofExcept_bind
  intro _ _
  apply does_bind (does_readExactSnapshot henv file _ policy)
  rintro bytes held' own - ⟨rfl, hlength, hmax⟩
  have hheld : file :: root :: directories.map HeldDirectory.file ⊆ file :: held₁ := by
    apply cons_subset_cons
    exact cons_subset.mpr ⟨hsub₁.subset mem_cons_self, hdirectories⟩
  apply does_bind (does_revalidateNamespace henv hheld)
  rintro _ held' own - ⟨rfl, -⟩
  exact does_pure ⟨hheld, by rw [hdirectoryNames, artifactNames_ok hnames], rfl, rfl, hmax, rfl⟩

variable [DecidableEq δ]

variable {artifact : DescriptorBoundArtifact δ} {w : World FileSystem Call File}

theorem does_read (henv : Respects Holds env.act) (hheld : artifact.inner.descriptors ⊆ held) :
    Does Holds (env.read artifact) held fun r _ own =>
      env.sha256 r.bytes = artifact.proof.sha256 ∧ r.bytes.length = artifact.inner.snapshot.length ∧
        ∃ before reading after, own = before ++ reading ++ after ∧ env.Seen artifact.inner before ∧
          env.Seen artifact.inner after := by
  apply does_bind (does_revalidateNamespace henv hheld)
  rintro _ held' before - ⟨rfl, hbefore⟩
  apply does_bind (does_readExactSnapshot henv _ _ _)
  rintro bytes held' reading - ⟨rfl, hlength, -⟩
  apply does_ensure_bind
  intro hhash
  apply does_bind (does_revalidateNamespace henv hheld)
  rintro _ held' after - ⟨rfl, hafter⟩
  refine does_pure ⟨hhash, hlength, before, reading, after, ?_, hbefore, hafter⟩
  rw [append_nil, append_assoc]

/-- The descriptors of the artifact are open, on the inodes they were opened on. -/
def Holding (artifact : HeldArtifact) (w : World FileSystem Call File) : Prop :=
  ∃ held, Keeps Holds held w ∧ artifact.descriptors ⊆ held

theorem Holding.read (henv : Respects Holds env.act)
    (h : Holding artifact.inner w) : Holding artifact.inner (env.read artifact w).2 := by
  obtain ⟨held, hkeeps, hsub⟩ := h
  have hdoes := does_read henv hsub w hkeeps
  cases hr : env.read artifact w with
  | mk r w' =>
    rw [hr] at hdoes
    cases r with
    | error e =>
      obtain ⟨held', hkeeps', hsuffix⟩ := hdoes
      exact ⟨held', hkeeps', fun d hd => hsuffix.subset (hsub hd)⟩
    | ok r =>
      obtain ⟨held', own, hkeeps', hsuffix, -⟩ := hdoes
      exact ⟨held', hkeeps', fun d hd => hsuffix.subset (hsub hd)⟩

/-- Reads in a row, whatever each of them returned. -/
def Environment.reads (env : Environment δ) (artifact : DescriptorBoundArtifact δ) :
    ℕ → World FileSystem Call File → World FileSystem Call File
  | 0, w => w
  | n + 1, w => (env.read artifact (env.reads artifact n w)).2

theorem Holding.reads (henv : Respects Holds env.act) (h : Holding artifact.inner w) (n : ℕ) :
    Holding artifact.inner (env.reads artifact n w) := by
  induction n with
  | zero => exact h
  | succ n ih => exact ih.read henv

omit [DecidableEq δ] in
theorem openArtifact_ok {rootPath inputPath : Path} {policy : PrivateArtifactPolicy} {w' : World FileSystem Call File}
    (h : env.openArtifact rootPath inputPath policy w = (.ok artifact, w')) :
    ∃ admitted, env.openHashed rootPath inputPath policy w = (.ok (artifact.inner, artifact.proof, admitted), w') := by
  unfold openArtifact at h
  cases hr : env.openHashed rootPath inputPath policy w with
  | mk r w₁ =>
    cases r with
    | error e =>
      rw [bind_of_error hr] at h
      cases h
    | ok r =>
      rw [bind_of_ok hr] at h
      cases h
      exact ⟨_, rfl⟩

/-- Everything a successful read stands for; `own` is what its own system calls found. -/
structure Environment.Custody (env : Environment δ) (rootPath inputPath : Path) (policy : PrivateArtifactPolicy)
    (artifact : DescriptorBoundArtifact δ) (admitted : List UInt8) (read : ArtifactRead δ) (own : Trace) : Prop where
  bytes : read.bytes = admitted
  count : read.bytes.length = artifact.proof.byteCount
  bounded : artifact.proof.byteCount ≤ policy.maxBytes
  names : inputPath =
    rootPath ++ (artifact.inner.directories.map HeldDirectory.name ++ [artifact.inner.fileName]).map .normal
  seen : ∃ before reading after, own = before ++ reading ++ after ∧ env.Seen artifact.inner before ∧
    env.Seen artifact.inner after

/-- A read that succeeds, however often the artifact was read before and whatever the adversary did meanwhile, returns
the admitted bytes and has seen the whole namespace in place before and after reading them. -/
theorem read_custody (henv : Respects Holds env.act) (hhash : Function.Injective env.sha256)
    {rootPath inputPath : Path} {policy : PrivateArtifactPolicy} {artifact : DescriptorBoundArtifact δ}
    {w₀ w₁ w₂ : World FileSystem Call File} (hstart : ∀ d ∈ w₀.held, w₀.state.Holds d)
    (hopen : env.openArtifact rootPath inputPath policy w₀ = (.ok artifact, w₁)) (n : ℕ) {read : ArtifactRead δ}
    (hread : env.read artifact (env.reads artifact n w₁) = (.ok read, w₂)) :
    ∃ admitted own, env.openHashed rootPath inputPath policy w₀ = (.ok (artifact.inner, artifact.proof, admitted), w₁) ∧
      w₂.trace = (env.reads artifact n w₁).trace ++ own ∧
      env.Custody rootPath inputPath policy artifact admitted read own := by
  obtain ⟨admitted, hadmit⟩ := openArtifact_ok hopen
  obtain ⟨held, -, hkeeps, -, -, hA⟩ := (does_openHashed henv rootPath inputPath policy).ok ⟨rfl, hstart⟩ hadmit
  obtain ⟨held', hkeeps', hsub⟩ := Holding.reads henv ⟨held, hkeeps, hA.keeps⟩ n
  obtain ⟨-, own, -, -, htrace, hsha, hlength, hseen⟩ := (does_read henv hsub).ok hkeeps' hread
  refine ⟨admitted, own, hadmit, htrace, ?_, hlength.trans hA.length, hA.bounded, hA.names, hseen⟩
  exact hhash (hsha.trans hA.hash)

/-! A private root `/r` with the artifact `/r/d/f`, next to which somebody creates, writes, links and removes files. -/

def quietInode (generation : ℕ) (kind : Kind) (content : List UInt8) (entries : List (Name × FileIdentity)) : Inode :=
  ⟨generation, kind, 1000, 0o700, 1, ⟨0, 0, 0, 0⟩, content, entries⟩

def exampleFiles : FileSystem where
  inode identity :=
    [(1, quietInode 1 .directory [] [([114], ⟨0, 2⟩)]), (2, quietInode 2 .directory [] [([100], ⟨0, 3⟩)]),
      (3, quietInode 3 .directory [] [([102], ⟨0, 4⟩)]), (4, quietInode 4 .regular [7, 8] [])].lookup identity.inode
  generations := 5

def busyNeighbour : ℕ → List Action
  | 2 => [.create ⟨0, 3⟩ [120] ⟨0, 9⟩ .regular 1000 0o600 [1]]
  | 9 => [.write ⟨0, 9⟩ [1, 2, 3] ⟨1, 0, 1, 0⟩, .link ⟨0, 2⟩ [121] ⟨0, 9⟩]
  | 30 => [.rename ⟨0, 2⟩ [121] ⟨0, 3⟩ [122], .unlink ⟨0, 3⟩ [120], .chmod ⟨0, 9⟩ 0 0o644]
  | _ => []

def exampleEnvironment : Environment (List UInt8) where
  euid := 1000
  act := interfere busyNeighbour
  resolve _ fs path := path.foldlM (fun identity part =>
    match part with
    | .rootDir => some ⟨0, 1⟩
    | .normal name => fs.find identity name
    | _ => none) ⟨0, 1⟩
  fails _ := false
  chunk _ := 0
  sha256 := id

def exampleOpen : Except PrivateArtifactError (DescriptorBoundArtifact (List UInt8)) × World FileSystem Call File :=
  exampleEnvironment.openArtifact [.rootDir, .normal [114]] [.rootDir, .normal [114], .normal [100], .normal [102]]
    ⟨1024, by decide⟩ ⟨exampleFiles, [], 0, []⟩

/-- The second read, after everything the neighbour does. -/
def exampleRead : Option (ArtifactRead (List UInt8)) :=
  match exampleOpen with
  | (.ok artifact, w) => (exampleEnvironment.read artifact (exampleEnvironment.reads artifact 1 w)).1.toOption
  | (.error _, _) => none

theorem read_custody_busyNeighbour : exampleRead.map ArtifactRead.bytes = some [7, 8] ∧
      ∃ artifact w₁ read w₂ admitted own, exampleOpen = (.ok artifact, w₁) ∧
        exampleEnvironment.read artifact (exampleEnvironment.reads artifact 1 w₁) = (.ok read, w₂) ∧
        exampleEnvironment.Custody [.rootDir, .normal [114]] [.rootDir, .normal [114], .normal [100], .normal [102]]
          ⟨1024, by decide⟩ artifact admitted read own := by
  have hrun : exampleRead.map ArtifactRead.bytes = some [7, 8] := by decide +kernel
  refine ⟨hrun, ?_⟩
  obtain ⟨read, hsome, -⟩ := Option.map_eq_some_iff.mp hrun
  unfold exampleRead at hsome
  split at hsome
  case h_1 artifact w hopen =>
    cases hread : exampleEnvironment.read artifact (exampleEnvironment.reads artifact 1 w) with
    | mk r w₂ =>
      rw [hread] at hsome
      cases r with
      | error e => cases hsome
      | ok r =>
        obtain ⟨admitted, own, -, -, hcustody⟩ := read_custody (respects_interfere busyNeighbour)
          Function.injective_id (fun d hd => absurd hd not_mem_nil) hopen 1 hread
        exact ⟨artifact, w, r, w₂, admitted, own, hopen, hread, hcustody⟩
  case h_2 => cases hsome

end Custody

end McpToolkit.Artifact
