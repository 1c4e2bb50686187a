import Tux3.Basic
import Mathlib.Logic.Function.Basic

/-!
# Directory operations on inodes

The operations of `namei.c` over the directory entries of a volume and the link counts of its
inodes. Directories are their entries here; how entries lie in blocks is a model of its own.
-/
namespace Tux3.Namei

def enoent : ℤ := 2
def emlink : ℤ := 31
def enotempty : ℤ := 39

def sIfmt : ℕ := 0o170000
def sIfdir : ℕ := 0o40000
def sIflnk : ℕ := 0o120000
def sIsgid : ℕ := 0o2000
def sIrwxugo : ℕ := 0o777

def tuxLinkMax : ℕ := 2 ^ 15

/-- `S_ISDIR`. -/
def isDir (mode : ℕ) : Bool := mode &&& sIfmt == sIfdir

structure Inode where
  mode : ℕ
  nlink : ℕ
  deriving DecidableEq, Repr

/-- A record of a directory, with the directory it is in. -/
structure Dirent where
  dir : ℕ
  name : List ℕ
  inum : ℕ
  type : ℕ
  deriving DecidableEq, Repr

/-- The inodes by number, the numbers in use and the entries of all directories. -/
structure Fs where
  inode : ℕ → Inode
  used : ℕ → Bool
  entries : List Dirent

/-- The name in a `struct dentry` and its `d_inode`. -/
structure Dentry where
  name : List ℕ
  inode : Option ℕ

/-- What the calls below this file return: the number of a new inode, and the errors of
`tux_create_inode`, `page_symlink`, `tux_create_dirent` and `tux_delete_dirent`. -/
structure Env where
  inum : ℕ
  createErr : ℤ
  symlinkErr : ℤ
  addErr : ℤ
  delErr : ℤ

section
variable (env : Env) (fs : Fs)

/-! ## Link counts -/

def Fs.setNlink (i : ℕ) (f : ℕ → ℕ) : Fs :=
  { fs with
    inode := Function.update fs.inode i { fs.inode i with nlink := f (fs.inode i).nlink } }

def inodeIncLinkCount (i : ℕ) : Fs := fs.setNlink i fun n => u32 (n + 1)

def inodeDecLinkCount (i : ℕ) : Fs := fs.setNlink i fun n => u32 (n + (2 ^ 32 - 1))

def dropNlink (i : ℕ) : Fs := fs.setNlink i fun n => u32 (n + (2 ^ 32 - 1))

def clearNlink (i : ℕ) : Fs := fs.setNlink i fun _ => 0

/-- `tux_new_inode`: `new_inode` sets the count to 1. -/
def tuxNewInode (dir : Inode) (mode : ℕ) : Inode :=
  let mode := if dir.mode &&& sIsgid ≠ 0 ∧ isDir mode then mode ||| sIsgid else mode
  ⟨mode, if isDir mode then 1 + 1 else 1⟩

def tuxCreateInode (dir mode : ℕ) : Fs :=
  { fs with
    inode := Function.update fs.inode env.inum (tuxNewInode (fs.inode dir) mode)
    used := Function.update fs.used env.inum true }

/-! ## Directory entries -/

/-- `tux_type_by_mode`. -/
def tuxTypeByMode (mode : ℕ) : ℕ :=
  match (mode &&& sIfmt) >>> 12 with
  | 8 => 1
  | 4 => 2
  | 2 => 3
  | 6 => 4
  | 1 => 5
  | 12 => 6
  | 10 => 7
  | _ => 0

def tuxFindDirent (dir : ℕ) (name : List ℕ) : Option Dirent :=
  fs.entries.find? fun e => e.dir = dir ∧ e.name = name

def tuxAddDirent (dir : ℕ) (name : List ℕ) (inum : ℕ) : Fs :=
  { fs with entries := fs.entries ++ [⟨dir, name, inum, tuxTypeByMode (fs.inode inum).mode⟩] }

def tuxUpdateDirent (entry : Dirent) (inum : ℕ) : Fs :=
  { fs with
    entries := fs.entries.replace entry
      { entry with inum := inum, type := tuxTypeByMode (fs.inode inum).mode } }

def tuxDeleteDirent (entry : Dirent) : Fs := { fs with entries := fs.entries.erase entry }

/-- The entries `.` and `..`, the ones `tux_dir_is_empty` passes over. -/
def isDot (dir : ℕ) (e : Dirent) : Bool :=
  e.name.head? == some 46 && e.name.length ≤ 2 &&
    if e.name.length < 2 then e.inum == dir else e.name[1]? == some 46

def tuxDirIsEmpty (dir : ℕ) : ℤ :=
  if (fs.entries.filter fun e => e.dir = dir).all (isDot dir) then 0 else -enotempty

def tuxDelDirent (dir : ℕ) (dentry : Dentry) : ℤ × Fs :=
  match tuxFindDirent fs dir dentry.name with
  | none => (-enoent, fs)
  | some entry => if env.delErr ≠ 0 then (env.delErr, fs) else (0, tuxDeleteDirent fs entry)

/-! ## The operations -/

def tux3Mknod (dir : ℕ) (dentry : Dentry) (mode : ℕ) : ℤ × Fs :=
  if env.createErr ≠ 0 then (env.createErr, fs)
  else
    let fs := tuxCreateInode env fs dir mode
    if env.addErr ≠ 0 then (env.addErr, clearNlink fs env.inum)
    else
      let fs := tuxAddDirent fs dir dentry.name env.inum
      (0, if isDir (fs.inode env.inum).mode then inodeIncLinkCount fs dir else fs)

def tux3Create (dir : ℕ) (dentry : Dentry) (mode : ℕ) : ℤ × Fs := tux3Mknod env fs dir dentry mode

def tux3Mkdir (dir : ℕ) (dentry : Dentry) (mode : ℕ) : ℤ × Fs :=
  if tuxLinkMax ≤ (fs.inode dir).nlink then (-emlink, fs)
  else tux3Mknod env fs dir dentry (sIfdir ||| mode)

def tux3Link (inode dir : ℕ) (dentry : Dentry) : ℤ × Fs :=
  if tuxLinkMax ≤ (fs.inode inode).nlink then (-emlink, fs)
  else
    let fs := inodeIncLinkCount fs inode
    if env.addErr ≠ 0 then (env.addErr, inodeDecLinkCount fs inode)
    else (0, tuxAddDirent fs dir dentry.name inode)

def tux3Symlink (dir : ℕ) (dentry : Dentry) : ℤ × Fs :=
  if env.createErr ≠ 0 then (env.createErr, fs)
  else
    let fs := tuxCreateInode env fs dir (sIflnk ||| sIrwxugo)
    if env.symlinkErr ≠ 0 then (env.symlinkErr, inodeDecLinkCount fs env.inum)
    else if env.addErr ≠ 0 then (env.addErr, inodeDecLinkCount fs env.inum)
    else (0, tuxAddDirent fs dir dentry.name env.inum)

def tux3Unlink (inode dir : ℕ) (dentry : Dentry) : ℤ × Fs :=
  match tuxDelDirent env fs dir dentry with
  | (err, fs) => if err ≠ 0 then (err, fs) else (0, inodeDecLinkCount fs inode)

def tux3Rmdir (inode dir : ℕ) (dentry : Dentry) : ℤ × Fs :=
  let err := tuxDirIsEmpty fs inode
  if err ≠ 0 then (err, fs)
  else
    match tuxDelDirent env fs dir dentry with
    | (err, fs) => if err ≠ 0 then (err, fs) else (0, inodeDecLinkCount (clearNlink fs inode) dir)

/-- The last steps of `tux3_rename`. -/
def renameFinish (oldInode oldDir : ℕ) (oldEntry : Dirent) (newSubdir : Bool) : ℤ × Fs :=
  if env.delErr ≠ 0 then (env.delErr, inodeIncLinkCount fs oldInode)
  else
    let fs := tuxDeleteDirent fs oldEntry
    (0, if newSubdir then inodeDecLinkCount fs oldDir else fs)

def tux3Rename (oldInode oldDir : ℕ) (oldDentry : Dentry) (newDir : ℕ) (newDentry : Dentry) :
    ℤ × Fs :=
  match tuxFindDirent fs oldDir oldDentry.name with
  | none => (-enoent, fs)
  | some oldEntry =>
      let oldIsDir := isDir (fs.inode oldInode).mode
      match newDentry.inode with
      | some newInode =>
          let err := if oldIsDir then tuxDirIsEmpty fs newInode else 0
          if err ≠ 0 then (err, fs)
          else
            match tuxFindDirent fs newDir newDentry.name with
            | none => (-enoent, fs)
            | some newEntry =>
                let fs := tuxUpdateDirent fs newEntry oldInode
                let fs := if oldIsDir then dropNlink fs newInode else fs
                let fs := inodeDecLinkCount fs newInode
                renameFinish env fs oldInode oldDir oldEntry false
      | none =>
          let newSubdir := oldIsDir && newDir != oldDir
          if newSubdir && tuxLinkMax ≤ (fs.inode newDir).nlink then (-emlink, fs)
          else if env.addErr ≠ 0 then (env.addErr, fs)
          else
            let fs := tuxAddDirent fs newDir newDentry.name oldInode
            let fs := if newSubdir then inodeIncLinkCount fs newDir else fs
            renameFinish env fs oldInode oldDir oldEntry newSubdir

end

/-! ## Runs -/

/-- A call, with the inodes that the dentries name. `evict` is the end of an inode without
links, after which its number can be used again. -/
inductive Op where
  | create (dir : ℕ) (dentry : Dentry) (mode : ℕ)
  | mknod (dir : ℕ) (dentry : Dentry) (mode : ℕ)
  | mkdir (dir : ℕ) (dentry : Dentry) (mode : ℕ)
  | link (inode dir : ℕ) (dentry : Dentry)
  | symlink (dir : ℕ) (dentry : Dentry)
  | unlink (inode dir : ℕ) (dentry : Dentry)
  | rmdir (inode dir : ℕ) (dentry : Dentry)
  | rename (oldInode oldDir : ℕ) (oldDentry : Dentry) (newDir : ℕ) (newDentry : Dentry)
  | evict (inode : ℕ)

def step (env : Env) (fs : Fs) : Op → ℤ × Fs
  | .create dir dentry mode => tux3Create env fs dir dentry mode
  | .mknod dir dentry mode => tux3Mknod env fs dir dentry mode
  | .mkdir dir dentry mode => tux3Mkdir env fs dir dentry mode
  | .link inode dir dentry => tux3Link env fs inode dir dentry
  | .symlink dir dentry => tux3Symlink env fs dir dentry
  | .unlink inode dir dentry => tux3Unlink env fs inode dir dentry
  | .rmdir inode dir dentry => tux3Rmdir env fs inode dir dentry
  | .rename oldInode oldDir oldDentry newDir newDentry =>
      tux3Rename env fs oldInode oldDir oldDentry newDir newDentry
  | .evict inode => (0, { fs with used := Function.update fs.used inode false })

section
variable (root : ℕ) (fs : Fs)

/-- A directory that is not removed. -/
def Present (d : ℕ) : Prop :=
  fs.used d = true ∧ isDir (fs.inode d).mode = true ∧ (d = root ∨ ∃ e ∈ fs.entries, e.inum = d)

/-- The names that reach `namei.c`. -/
def ValidName (name : List ℕ) : Prop := name ≠ [] ∧ name ≠ [46] ∧ name ≠ [46, 46]

instance (name : List ℕ) : Decidable (ValidName name) := inferInstanceAs (Decidable (_ ∧ _))

/-- A dentry without an inode, whose name is not in the directory. -/
def Negative (dir : ℕ) (dentry : Dentry) : Prop :=
  dentry.inode = none ∧ ValidName dentry.name ∧
    ∀ e ∈ fs.entries, ¬ (e.dir = dir ∧ e.name = dentry.name)

/-- A dentry whose name is in the directory and names its inode. -/
def Positive (dir : ℕ) (dentry : Dentry) (inode : ℕ) : Prop :=
  dentry.inode = some inode ∧
    ∃ e ∈ fs.entries, e.dir = dir ∧ e.name = dentry.name ∧ e.inum = inode

/-- The calls that the VFS lets through. -/
def Permitted (env : Env) : Op → Prop
  | .create dir dentry mode | .mknod dir dentry mode =>
      Present root fs dir ∧ Negative fs dir dentry ∧ isDir mode = false ∧ fs.used env.inum = false
  | .mkdir dir dentry mode =>
      Present root fs dir ∧ Negative fs dir dentry ∧ mode &&& sIfmt = 0 ∧
        fs.used env.inum = false
  | .link inode dir dentry =>
      Present root fs dir ∧ Negative fs dir dentry ∧ isDir (fs.inode inode).mode = false ∧
        ∃ e ∈ fs.entries, e.inum = inode
  | .symlink dir dentry =>
      Present root fs dir ∧ Negative fs dir dentry ∧ fs.used env.inum = false
  | .unlink inode dir dentry =>
      Positive fs dir dentry inode ∧ isDir (fs.inode inode).mode = false
  | .rmdir inode dir dentry => Positive fs dir dentry inode ∧ isDir (fs.inode inode).mode = true
  | .rename oldInode oldDir oldDentry newDir newDentry =>
      Positive fs oldDir oldDentry oldInode ∧ Present root fs newDir ∧
        (Negative fs newDir newDentry ∨ ∃ newInode, Positive fs newDir newDentry newInode ∧
          newInode ≠ oldInode ∧
          isDir (fs.inode newInode).mode = isDir (fs.inode oldInode).mode)
  | .evict inode => fs.used inode = true ∧ (fs.inode inode).nlink = 0

/-- The names of an inode. -/
def names (entries : List Dirent) (i : ℕ) : ℕ := entries.countP fun e => e.inum = i

/-- The subdirectory entries of a directory. -/
def subdirs (entries : List Dirent) (inode : ℕ → Inode) (d : ℕ) : ℕ :=
  entries.countP fun e => e.dir = d ∧ isDir (inode e.inum).mode

/-- Link counts match the namespace. -/
def LinksMatch : Prop :=
  ∀ i, fs.used i = true →
    (isDir (fs.inode i).mode = false → (fs.inode i).nlink = names fs.entries i) ∧
    (Present root fs i → (fs.inode i).nlink = 2 + subdirs fs.entries fs.inode i)

end

/-- The volume with an empty root directory. -/
def format (root mode : ℕ) (inode : ℕ → Inode) : Fs where
  inode := Function.update inode root (tuxNewInode ⟨0, 1⟩ (sIfdir ||| mode))
  used := fun i => i == root
  entries := []

/-- A rename that replaces a directory by another one. -/
def ReplacesDir (fs : Fs) : Op → Prop
  | .rename oldInode _ _ _ newDentry =>
      isDir (fs.inode oldInode).mode = true ∧ newDentry.inode ≠ none
  | _ => False

/-- The states after successful calls that meet a condition. -/
inductive Reached (root : ℕ) (meets : Fs → Op → Prop) : Fs → Prop where
  | format (mode : ℕ) (inode : ℕ → Inode) (h : mode &&& sIfmt = 0) :
      Reached root meets (format root mode inode)
  | step {fs : Fs} (h : Reached root meets fs) (env : Env) (op : Op)
      (hop : Permitted root fs env op) (hmeets : meets fs op) (hok : (step env fs op).1 = 0) :
      Reached root meets (step env fs op).2

end Tux3.Namei
