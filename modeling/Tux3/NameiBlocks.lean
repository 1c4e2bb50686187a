import Tux3.DirMap
import Tux3.LinkCounts

/-!
# Directory operations on blocks

The operations of `namei.c` over the blocks of the directories, where `dir.c` finds, creates, changes
and deletes the entries. There is no result when `error` or `BUG_ON` ends the program.
-/
namespace Tux3.NameiBlocks

open Namei (Inode isDir tuxNewInode sIfdir sIflnk sIrwxugo sIfmt tuxLinkMax)

/-- The inodes by number, the numbers in use and the contents of the directories. -/
structure Volume where
  inode : ℕ → Inode
  used : ℕ → Bool
  dir : ℕ → Dir.Directory

/-- The name in a `struct dentry` and its `d_inode`. -/
structure Dentry where
  name : List UInt8
  inode : Option ℕ

/-- The number of a new inode, and the errors of `tux_create_inode` and `page_symlink`. -/
structure Env where
  inum : ℕ
  createErr : ℤ
  symlinkErr : ℤ

def errno : Dir.Failure → Option ℤ
  | .eio => some (-5)
  | .enoent => some (-2)
  | .die => none

section
variable (blockbits : ℕ) (env : Env) (v : Volume)

/-! ## Link counts -/

def Volume.setNlink (i : ℕ) (f : ℕ → ℕ) : Volume :=
  { v with
    inode := Function.update v.inode i { v.inode i with nlink := f (v.inode i).nlink } }

def inodeIncLinkCount (i : ℕ) : Volume := v.setNlink i fun n => u32 (n + 1)

/-- `inode_dec_link_count` and `drop_nlink`. -/
def inodeDecLinkCount (i : ℕ) : Volume := v.setNlink i fun n => u32 (n + (2 ^ 32 - 1))

def clearNlink (i : ℕ) : Volume := v.setNlink i fun _ => 0

/-- `inode->i_size = 0`. -/
def clearSize (i : ℕ) : Volume :=
  { v with dir := Function.update v.dir i ⟨(v.dir i).block, 0⟩ }

def tuxCreateInode (dir mode : ℕ) : Volume where
  inode := Function.update v.inode env.inum (tuxNewInode (v.inode dir) mode)
  used := Function.update v.used env.inum true
  dir := Function.update v.dir env.inum ⟨(v.dir env.inum).block, 0⟩

/-! ## Directory entries -/

def tuxFindDirent (dir : ℕ) (name : List UInt8) : Except Dir.Failure (ℕ × ℕ) :=
  Dir.tuxFindEntry blockbits (v.dir dir) name

/-- The entry at a place. -/
def Volume.entry (dir : ℕ) (place : ℕ × ℕ) : Dir.Dirent := (v.dir dir).block place.1 place.2

def Volume.setBlock (dir block : ℕ) (b : Dir.Block) : Volume :=
  { v with
    dir := Function.update v.dir dir
      ⟨Function.update (v.dir dir).block block b, (v.dir dir).size⟩ }

def tuxCreateDirent (dir : ℕ) (name : List UInt8) (inum : ℕ) : Option (ℤ × Volume) :=
  match Dir.tuxCreateEntry blockbits (v.dir dir) name inum (v.inode inum).mode with
  | .error err => (errno err).map fun err => (err, v)
  | .ok (d, _) => some (0, { v with dir := Function.update v.dir dir d })

def tuxUpdateDirent (dir : ℕ) (place : ℕ × ℕ) (inum : ℕ) : Volume :=
  v.setBlock dir place.1 (Function.update ((v.dir dir).block place.1) place.2
    { v.entry dir place with inum := inum, type := Dir.tuxTypeByMode (v.inode inum).mode })

def tuxDeleteDirent (dir : ℕ) (place : ℕ × ℕ) : Option (ℤ × Volume) :=
  match Dir.tuxDeleteEntry ((v.dir dir).block place.1) place.2 with
  | .error err => (errno err).map fun err => (err, v)
  | .ok b => some (0, v.setBlock dir place.1 b)

def tuxDelDirent (dir : ℕ) (name : List UInt8) : Option (ℤ × Volume) :=
  match tuxFindDirent blockbits v dir name with
  | .error err => (errno err).map fun err => (err, v)
  | .ok place => tuxDeleteDirent v dir place

/-- The entries that stop the scan of `tux_dir_is_empty`. -/
def notDot (dir : ℕ) (entry : Dir.Dirent) : Bool :=
  !Dir.isDeleted entry && (entry.name.getD 0 0 != 46 || 2 < entry.nameLen ||
    if entry.nameLen < 2 then entry.inum != dir else entry.name.getD 1 0 != 46)

def tuxDirIsEmpty (dir : ℕ) : Option ℤ :=
  match Dir.scanBlocks (v.dir dir) (2 ^ blockbits) (Dir.tuxRecLen 1) (notDot dir)
      (Dir.blocksOf blockbits (v.dir dir).size) 0 with
  | .error err => errno err
  | .ok (some _) => some (-Namei.enotempty)
  | .ok none => some 0

/-! ## The operations -/

def tux3Mknod (dir : ℕ) (dentry : Dentry) (mode : ℕ) : Option (ℤ × Volume) :=
  if env.createErr ≠ 0 then some (env.createErr, v)
  else
    match tuxCreateDirent blockbits (tuxCreateInode env v dir mode) dir dentry.name env.inum with
    | none => none
    | some (err, v) =>
        if err ≠ 0 then some (err, clearNlink v env.inum)
        else some (0, if isDir (v.inode env.inum).mode then inodeIncLinkCount v dir else v)

def tux3Create (dir : ℕ) (dentry : Dentry) (mode : ℕ) : Option (ℤ × Volume) :=
  tux3Mknod blockbits env v dir dentry mode

def tux3Mkdir (dir : ℕ) (dentry : Dentry) (mode : ℕ) : Option (ℤ × Volume) :=
  if tuxLinkMax ≤ (v.inode dir).nlink then some (-Namei.emlink, v)
  else tux3Mknod blockbits env v dir dentry (sIfdir ||| mode)

def tux3Link (inode dir : ℕ) (dentry : Dentry) : Option (ℤ × Volume) :=
  if tuxLinkMax ≤ (v.inode inode).nlink then some (-Namei.emlink, v)
  else
    match tuxCreateDirent blockbits (inodeIncLinkCount v inode) dir dentry.name inode with
    | none => none
    | some (err, v) => if err ≠ 0 then some (err, inodeDecLinkCount v inode) else some (0, v)

def tux3Symlink (dir : ℕ) (dentry : Dentry) : Option (ℤ × Volume) :=
  if env.createErr ≠ 0 then some (env.createErr, v)
  else
    let v := tuxCreateInode env v dir (sIflnk ||| sIrwxugo)
    if env.symlinkErr ≠ 0 then some (env.symlinkErr, inodeDecLinkCount v env.inum)
    else
      match tuxCreateDirent blockbits v dir dentry.name env.inum with
      | none => none
      | some (err, v) => if err ≠ 0 then some (err, inodeDecLinkCount v env.inum) else some (0, v)

def tux3Unlink (inode dir : ℕ) (dentry : Dentry) : Option (ℤ × Volume) :=
  match tuxDelDirent blockbits v dir dentry.name with
  | none => none
  | some (err, v) => if err ≠ 0 then some (err, v) else some (0, inodeDecLinkCount v inode)

def tux3Rmdir (inode dir : ℕ) (dentry : Dentry) : Option (ℤ × Volume) :=
  match tuxDirIsEmpty blockbits v inode with
  | none => none
  | some err =>
      if err ≠ 0 then some (err, v)
      else
        match tuxDelDirent blockbits v dir dentry.name with
        | none => none
        | some (err, v) =>
            if err ≠ 0 then some (err, v)
            else some (0, inodeDecLinkCount (clearNlink (clearSize v inode) inode) dir)

/-- The last steps of `tux3_rename`, with the place of the old entry. -/
def renameFinish (oldInode oldDir : ℕ) (oldEntry : ℕ × ℕ) (newSubdir : Bool) :
    Option (ℤ × Volume) :=
  match tuxDeleteDirent v oldDir oldEntry with
  | none => none
  | some (err, v) =>
      if err ≠ 0 then some (err, inodeIncLinkCount v oldInode)
      else some (0, if newSubdir then inodeDecLinkCount v oldDir else v)

/-- `tux3_rename` with a target: `tux_dir_is_empty`, and the change of its entry. -/
def renameOver (oldInode newInode newDir : ℕ) (name : List UInt8) : Option (ℤ × Volume) :=
  let oldIsDir := isDir (v.inode oldInode).mode
  match if oldIsDir then tuxDirIsEmpty blockbits v newInode else some 0 with
  | none => none
  | some err =>
      if err ≠ 0 then some (err, v)
      else
        match tuxFindDirent blockbits v newDir name with
        | .error .enoent => none
        | .error err => (errno err).map fun err => (err, v)
        | .ok newEntry =>
            let v := tuxUpdateDirent v newDir newEntry oldInode
            let v := if oldIsDir then inodeDecLinkCount v newInode else v
            some (0, inodeDecLinkCount v newInode)

/-- `tux3_rename` to a new name. -/
def renameNew (oldInode newDir : ℕ) (newSubdir : Bool) (name : List UInt8) : Option (ℤ × Volume) :=
  if newSubdir && tuxLinkMax ≤ (v.inode newDir).nlink then some (-Namei.emlink, v)
  else
    match tuxCreateDirent blockbits v newDir name oldInode with
    | none => none
    | some (err, v) =>
        if err ≠ 0 then some (err, v)
        else some (0, if newSubdir then inodeIncLinkCount v newDir else v)

def tux3Rename (oldInode oldDir : ℕ) (oldDentry : Dentry) (newDir : ℕ) (newDentry : Dentry) :
    Option (ℤ × Volume) :=
  match tuxFindDirent blockbits v oldDir oldDentry.name with
  | .error err => (errno err).map fun err => (err, v)
  | .ok oldEntry =>
      if (v.entry oldDir oldEntry).inum ≠ oldInode then none
      else
        let newSubdir := newDentry.inode = none ∧ isDir (v.inode oldInode).mode ∧ newDir ≠ oldDir
        match
          match newDentry.inode with
          | some newInode => renameOver blockbits v oldInode newInode newDir newDentry.name
          | none => renameNew blockbits v oldInode newDir newSubdir newDentry.name
        with
        | none => none
        | some (err, v) =>
            if err ≠ 0 then some (err, v) else renameFinish v oldInode oldDir oldEntry newSubdir

end

/-! ## Runs -/

/-- The calls of `Namei.Op`. -/
inductive Op where
  | create (dir : ℕ) (dentry : Dentry) (mode : ℕ)
  | mknod (dir : ℕ) (dentry : Dentry) (mode : ℕ)
  | mkdir (dir : ℕ) (dentry : Dentry) (mode : ℕ)
  | link (inode dir : ℕ) (dentry : Dentry)
  | symlink (dir : ℕ) (dentry : Dentry)
  | unlink (inode dir : ℕ) (dentry : Dentry)
  | rmdir (inode dir : ℕ) (dentry : Dentry)
  | rename (oldInode oldDir : ℕ) (oldDentry : Dentry) (newDir : ℕ) (newDentry : Dentry)
  | evict (inode : ℕ)

section
variable (blockbits : ℕ)

def step (env : Env) (v : Volume) : Op → Option (ℤ × Volume)
  | .create dir dentry mode => tux3Create blockbits env v dir dentry mode
  | .mknod dir dentry mode => tux3Mknod blockbits env v dir dentry mode
  | .mkdir dir dentry mode => tux3Mkdir blockbits env v dir dentry mode
  | .link inode dir dentry => tux3Link blockbits v inode dir dentry
  | .symlink dir dentry => tux3Symlink blockbits env v dir dentry
  | .unlink inode dir dentry => tux3Unlink blockbits v inode dir dentry
  | .rmdir inode dir dentry => tux3Rmdir blockbits v inode dir dentry
  | .rename oldInode oldDir oldDentry newDir newDentry =>
      tux3Rename blockbits v oldInode oldDir oldDentry newDir newDentry
  | .evict inode => some (0, { v with used := Function.update v.used inode false })

variable (root : ℕ) (v : Volume)

/-- A name that is found in a directory, with an inode number. -/
def Found (dir : ℕ) (name : List UInt8) (inum : ℕ) : Prop :=
  ∃ place, tuxFindDirent blockbits v dir name = .ok place ∧ (v.entry dir place).inum = inum

/-- A directory that is not removed. -/
def Present (d : ℕ) : Prop :=
  v.used d = true ∧ isDir (v.inode d).mode = true ∧ (d = root ∨ ∃ dir name, Found blockbits v dir name d)

/-- The names that reach `namei.c`, and fit a block. -/
def ValidName (name : List UInt8) : Prop :=
  name ≠ [] ∧ name ≠ [46] ∧ name ≠ [46, 46] ∧ name.length ≤ 255 ∧
    Dir.tuxRecLen name.length ≤ 2 ^ blockbits

instance (name : List UInt8) : Decidable (ValidName blockbits name) :=
  inferInstanceAs (Decidable (_ ∧ _))

/-- A dentry without an inode, whose name is not in the directory, with room for it below 4 GiB. -/
def Negative (dir : ℕ) (dentry : Dentry) : Prop :=
  dentry.inode = none ∧ ValidName blockbits dentry.name ∧
    tuxFindDirent blockbits v dir dentry.name = .error .enoent ∧
    Dir.BelowLimit blockbits (v.dir dir) dentry.name.length

/-- A dentry whose name is in the directory and names its inode. -/
def Positive (dir : ℕ) (dentry : Dentry) (inode : ℕ) : Prop :=
  dentry.inode = some inode ∧ Found blockbits v dir dentry.name inode

/-- The calls that the VFS lets through. -/
def Permitted (env : Env) : Op → Prop
  | .create dir dentry mode | .mknod dir dentry mode =>
      Present blockbits root v dir ∧ Negative blockbits v dir dentry ∧ isDir mode = false ∧
        v.used env.inum = false
  | .mkdir dir dentry mode =>
      Present blockbits root v dir ∧ Negative blockbits v dir dentry ∧ mode &&& sIfmt = 0 ∧
        v.used env.inum = false
  | .link inode dir dentry =>
      Present blockbits root v dir ∧ Negative blockbits v dir dentry ∧
        isDir (v.inode inode).mode = false ∧ ∃ d name, Found blockbits v d name inode
  | .symlink dir dentry =>
      Present blockbits root v dir ∧ Negative blockbits v dir dentry ∧ v.used env.inum = false
  | .unlink inode dir dentry =>
      Positive blockbits v dir dentry inode ∧ isDir (v.inode inode).mode = false
  | .rmdir inode dir dentry =>
      Positive blockbits v dir dentry inode ∧ isDir (v.inode inode).mode = true
  | .rename oldInode oldDir oldDentry newDir newDentry =>
      Positive blockbits v oldDir oldDentry oldInode ∧ Present blockbits root v newDir ∧
        (Negative blockbits v newDir newDentry ∨
          ∃ newInode, Positive blockbits v newDir newDentry newInode ∧ newInode ≠ oldInode ∧
            isDir (v.inode newInode).mode = isDir (v.inode oldInode).mode)
  | .evict inode => v.used inode = true ∧ (v.inode inode).nlink = 0

/-- A rename that replaces a directory by another one. -/
def ReplacesDir : Op → Prop
  | .rename oldInode _ _ _ newDentry =>
      isDir (v.inode oldInode).mode = true ∧ newDentry.inode ≠ none
  | _ => False

end

/-- The volume with an empty root directory; the blocks behind the end of a directory are anything. -/
def format (root mode : ℕ) (inode : ℕ → Inode) (block : ℕ → ℕ → Dir.Block) : Volume where
  inode := Function.update inode root (tuxNewInode ⟨0, 1⟩ (sIfdir ||| mode))
  used := fun i => i == root
  dir := fun d => ⟨block d, 0⟩

/-- The states after calls, with or without an error, but without a rename over a directory. -/
inductive Reached (blockbits root : ℕ) : Volume → Prop where
  | format (mode : ℕ) (inode : ℕ → Inode) (block : ℕ → ℕ → Dir.Block) (h : mode &&& sIfmt = 0) :
      Reached blockbits root (format root mode inode block)
  | step {v v' : Volume} {err : ℤ} (h : Reached blockbits root v) (env : Env) (op : Op)
      (hop : Permitted blockbits root v env op) (hmeets : ¬ ReplacesDir v op)
      (hstep : step blockbits env v op = some (err, v')) : Reached blockbits root v'

end Tux3.NameiBlocks
