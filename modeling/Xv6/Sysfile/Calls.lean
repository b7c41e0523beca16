import Xv6.Files.Ftable
import Xv6.Fs.Paths

/-! sysfile.c: the system calls on names. Arguments are what argstr() and argint()
fetch, `none` if they return -1. A call is one transaction, so that what it leaves
on the disk is what is there after end_op(). -/

namespace Xv6.Sysfile
open Lib Fs Files

/-- The file system, the open files and the current directory of each process. -/
structure State (π : Type) where
  fs : Cached
  files : Ftable π (Fin ninode)
  cwd : Slot → Fin ninode

section code
variable {π : Type} (sb : Superblock) (dev : Devsw)

def onFs {α : Type} (x : Prog Cached α) : Prog (State π) α :=
  x.onPart State.fs fun s fs => { s with fs := fs }

def onFiles {α : Type} (x : Prog (Ftable π (Fin ninode)) α) : Prog (State π) α :=
  x.onPart State.files fun s files => { s with files := files }

/-! ## file.c -/

/-- Close file f. (Decrement ref count, close when reaches 0.) -/
def fileclose (pipeclose : π → Bool → Prog (State π) Unit) (f : Fin nfile) :
    Prog (State π) Unit := do
  let ff ← onFiles (Files.fileclose f)
  match ff with
  | none => pure ()
  | some ff =>
    match ff.type with
    | .none => pure ()
    | .pipe p => pipeclose p ff.writable
    | .inode ip => onFs (iput sb ip)

/-! ## link() and unlink() -/

/-- The label `bad` of sys_link(). -/
def linkBad (ip : Fin ninode) : Prog Cached Int := do
  ilock sb ip
  setNode ip fun node => { node with nlink := node.nlink - 1 }
  Cached.iupdate sb ip
  iunlockput sb ip
  return -1

/-- sys_link() from nameiparent() on. -/
def linkInto (cwd ip : Fin ninode) (new : List UInt8) : Prog Cached Int := do
  let (dp, name) ← nameiparent sb dev cwd new (charsOf [])
  match dp with
  | none => linkBad sb ip
  | some dp => do
    ilock sb dp
    let s ← .get
    if (s.inode dp).dev ≠ (s.inode ip).dev then do
      iunlockput sb dp
      linkBad sb ip
    else do
      let r ← Cached.dirlink sb dev dp name (s.inode ip).inum
      if r < 0 then do
        iunlockput sb dp
        linkBad sb ip
      else do
        iunlockput sb dp
        iput sb ip
        return 0

/-- Create the path new as a link to the same inode as old. -/
def sysLink (cwd : Fin ninode) (old new : List UInt8) : Prog Cached Int := do
  let ip ← namei sb dev cwd old
  match ip with
  | none => return -1
  | some ip => do
    ilock sb ip
    let s ← .get
    if (s.inode ip).node.type = tDir then do
      iunlockput sb ip
      return -1
    else do
      setNode ip fun node => { node with nlink := node.nlink + 1 }
      Cached.iupdate sb ip
      iunlock ip
      linkInto sb dev cwd ip new

/-- Is the directory dp empty except for "." and ".." ? -/
def isdirempty (dp : Dinode) : Prog Disk (Bool × Dinode) := do
  let ((_, de), dp) ← scanDir sb dev (fun de => decide (de.inum ≠ 0)) (rounds dp) dp
    (.ofNat (2 * Dirent.sizeof))
  return (de.isNone, dp)

/-- The condition under which sys_unlink() refuses: a directory that is not empty. -/
def isFull (ip : Fin ninode) : Prog Cached Bool := do
  let s ← .get
  if (s.inode ip).node.type = tDir then do
    let empty ← onNode ip fun _ dp => isdirempty sb dev dp
    return !empty
  else return false

/-- The part of sys_unlink() that removes the entry at off. -/
def removeName (dp ip : Fin ninode) (off : UInt32) : Prog Cached Int := do
  onNode dp fun dinum dp => do
    let dp ← zeroEntry sb dev dinum dp off
    return ((), dp)
  let s ← .get
  .when ((s.inode ip).node.type = tDir) do
    setNode dp fun node => { node with nlink := node.nlink - 1 }
    Cached.iupdate sb dp
  iunlockput sb dp
  setNode ip fun node => { node with nlink := node.nlink - 1 }
  Cached.iupdate sb ip
  iunlockput sb ip
  return 0

def sysUnlink (cwd : Fin ninode) (path : List UInt8) : Prog Cached Int := do
  let (dp, name) ← nameiparent sb dev cwd path (charsOf [])
  match dp with
  | none => return -1
  | some dp => do
    ilock sb dp
    -- Cannot unlink "." or "..".
    if namecmp name (charsOf [46]) = 0 ∨ namecmp name (charsOf [46, 46]) = 0 then do
      iunlockput sb dp
      return -1
    else do
      let found ← Cached.dirlookup sb dev dp name
      match found with
      | none => do
        iunlockput sb dp
        return -1
      | some (off, ip) => do
        ilock sb ip
        let s ← .get
        if (s.inode ip).node.nlink < 1 then .halt -- unlink: nlink < 1
        else do
          let full ← isFull sb dev ip
          if full then do
            iunlockput sb ip
            iunlockput sb dp
            return -1
          else removeName sb dev dp ip off

/-! ## create() -/

/-- Create . and .. entries. -/
def createDots (dp ip : Fin ninode) : Prog Cached Unit := do
  setNode dp fun node => { node with nlink := node.nlink + 1 } -- for ".."
  Cached.iupdate sb dp
  let s ← .get
  -- No ip->nlink++ for ".": avoid cyclic ref count.
  let r ← Cached.dirlink sb dev ip (charsOf [46]) (s.inode ip).inum
  if r < 0 then .halt -- create dots
  else do
    let r ← Cached.dirlink sb dev ip (charsOf [46, 46]) (s.inode dp).inum
    if r < 0 then .halt -- create dots
    else pure ()

/-- The end of create(), where the name is entered. -/
def enterName (dp ip : Fin ninode) (name : Chars) : Prog Cached (Option (Fin ninode)) := do
  let s ← .get
  let r ← Cached.dirlink sb dev dp name (s.inode ip).inum
  if r < 0 then .halt -- create: dirlink
  else do
    iunlockput sb dp
    return some ip

/-- The part of create() for a name that is not in the locked directory dp. -/
def createNew (dp : Fin ninode) (name : Chars) (type major minor : Int16) :
    Prog Cached (Option (Fin ninode)) := do
  let s ← .get
  let ip ← Cached.ialloc sb (s.inode dp).dev type
  ilock sb ip
  setNode ip fun node => { node with major := major, minor := minor, nlink := 1 }
  Cached.iupdate sb ip
  .when (type = tDir) (createDots sb dev dp ip)
  enterName sb dev dp ip name

/-- The inode is returned locked. -/
def create (cwd : Fin ninode) (path : List UInt8) (type major minor : Int16) :
    Prog Cached (Option (Fin ninode)) := do
  let (dp, name) ← nameiparent sb dev cwd path (charsOf [])
  match dp with
  | none => return none
  | some dp => do
    ilock sb dp
    let found ← Cached.dirlookup sb dev dp name
    match found with
    | some (_, ip) => do
      iunlockput sb dp
      ilock sb ip
      let s ← .get
      if type = tFile ∧ (s.inode ip).node.type = tFile then return some ip
      else do
        iunlockput sb ip
        return none
    | none => createNew sb dev dp name type major minor

/-- sys_mkdir() and sys_mknod() behind their arguments. -/
def make (cwd : Fin ninode) (path : List UInt8) (type major minor : Int16) : Prog Cached Int := do
  let ip ← create sb dev cwd path type major minor
  match ip with
  | none => return -1
  | some ip => do
    iunlockput sb ip
    return 0

/-! ## open() and chdir() -/

def oRdonly : UInt32 := 0x000

def oWronly : UInt32 := 0x001

def oRdwr : UInt32 := 0x002

def oCreate : UInt32 := 0x200

/-- The inode that sys_open() opens, locked. -/
def openInode (cwd : Fin ninode) (path : List UInt8) (omode : UInt32) :
    Prog Cached (Option (Fin ninode)) :=
  if omode &&& oCreate ≠ 0 then create sb dev cwd path tFile 0 0
  else do
    let ip ← namei sb dev cwd path
    match ip with
    | none => return none
    | some ip => do
      ilock sb ip
      let s ← .get
      if (s.inode ip).node.type = tDir ∧ omode ≠ oRdonly then do
        iunlockput sb ip
        return none
      else return some ip

/-- A file and a descriptor for it, or neither. -/
def openFile (pipeclose : π → Bool → Prog (State π) Unit) (me : Slot) :
    Prog (State π) (Option (Fin nfile × Fin nofile)) := do
  let f ← onFiles filealloc
  match f with
  | none => return none
  | some f => do
    let fd ← onFiles (fdalloc me f)
    match fd with
    | none => do
      fileclose sb pipeclose f
      return none
    | some fd => return some (f, fd)

def sysOpen (pipeclose : π → Bool → Prog (State π) Unit) (me : Slot) (path : List UInt8)
    (omode : UInt32) : Prog (State π) Int := do
  let s ← .get
  let ip ← onFs (openInode sb dev (s.cwd me) path omode)
  match ip with
  | none => return -1
  | some ip => do
    let file ← openFile sb pipeclose me
    match file with
    | none => do
      onFs (iunlockput sb ip)
      return -1
    | some (f, fd) => do
      onFs (iunlock ip)
      onFiles (.modify fun t => t.setFile f { t.file f with
        type := .inode ip
        off := 0
        readable := omode &&& oWronly = 0
        writable := omode &&& oWronly ≠ 0 ∨ omode &&& oRdwr ≠ 0 })
      return fd.val

def sysChdir (me : Slot) (path : List UInt8) : Prog (State π) Int := do
  let s ← .get
  let ip ← onFs (namei sb dev (s.cwd me) path)
  match ip with
  | none => return -1
  | some ip => do
    onFs (ilock sb ip)
    let s ← .get
    if (s.fs.inode ip).node.type ≠ tDir then do
      onFs (iunlockput sb ip)
      return -1
    else do
      onFs (iunlock ip)
      onFs (iput sb (s.cwd me))
      .modify fun s => { s with cwd := Function.update s.cwd me ip }
      return 0

/-! ## The system calls -/

/-- The bytes of a string before its NUL. -/
abbrev Path := { path : List UInt8 // 0 ∉ path }

inductive Call where
  | sysOpen (path : Option Path) (omode : Option UInt32)
  | sysLink (old new : Option Path)
  | sysUnlink (path : Option Path)
  | sysMkdir (path : Option Path)
  | sysMknod (path : Option Path) (major minor : Option Int)
  | sysChdir (path : Option Path)

def call (pipeclose : π → Bool → Prog (State π) Unit) (me : Slot) : Call → Prog (State π) Int
  | .sysOpen (some path) (some omode) => sysOpen sb dev pipeclose me path omode
  | .sysLink (some old) (some new) => do
    let s ← .get
    onFs (sysLink sb dev (s.cwd me) old new)
  | .sysUnlink (some path) => do
    let s ← .get
    onFs (sysUnlink sb dev (s.cwd me) path)
  | .sysMkdir (some path) => do
    let s ← .get
    onFs (make sb dev (s.cwd me) path tDir 0 0)
  | .sysMknod (some path) (some major) (some minor) => do
    let s ← .get
    onFs (make sb dev (s.cwd me) path tDev (.ofInt major) (.ofInt minor))
  | .sysChdir (some path) => sysChdir sb dev me path
  | _ => return -1 -- an argument could not be fetched

end code
end Xv6.Sysfile
