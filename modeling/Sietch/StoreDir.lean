import Sietch.Base.Script
import Sietch.Log

/-! The directory of a store: its segment files, the scratch directories of a
compaction and the commit marker. Every file-system call is one atomic action, so
the swap of a compaction is a script that a crash can cut anywhere. -/
namespace Sietch
open ByteString Script

inductive ScratchDir where
  | tmp
  | backup
  | placeholder
  deriving DecidableEq, Repr

/-- `none` is a scratch directory that does not exist. -/
structure StoreDir where
  main : SegmentDir
  tmp : Option SegmentDir
  backup : Option SegmentDir
  placeholder : Option SegmentDir
  marker : Bool
  deriving DecidableEq

namespace StoreDir

def empty : StoreDir := ⟨SortedMap.empty, none, none, none, false⟩

def scratch (d : StoreDir) : ScratchDir → Option SegmentDir
  | .tmp => d.tmp
  | .backup => d.backup
  | .placeholder => d.placeholder

def setScratch (d : StoreDir) (files : Option SegmentDir) : ScratchDir → StoreDir
  | .tmp => { d with tmp := files }
  | .backup => { d with backup := files }
  | .placeholder => { d with placeholder := files }

/-- No marker, temp, backup or placeholder entry. -/
def Clean (d : StoreDir) : Prop :=
  d.tmp = none ∧ d.backup = none ∧ d.placeholder = none ∧ d.marker = false

end StoreDir

/-- One durable step. `backupSegment` and `installSegment` are the two renames, the
second of which replaces an existing target; `writeLog` is a write of the log that
lives in a scratch directory. -/
inductive FsAction where
  | createDir (s : ScratchDir)
  | writeLog (s : ScratchDir) (files : SegmentDir)
  | writeMain (files : SegmentDir)
  | backupSegment (id : Nat)
  | installSegment (id : Nat)
  | removeFile (s : ScratchDir) (id : Nat)
  | removeDir (s : ScratchDir)
  | writeMarker
  | removeMarker
  deriving DecidableEq

def FsAction.apply (a : FsAction) (d : StoreDir) : StoreDir :=
  match a with
  | .createDir s => d.setScratch (some ((d.scratch s).getD SortedMap.empty)) s
  | .writeLog s files => d.setScratch (some files) s
  | .writeMain files => { d with main := files }
  | .backupSegment id =>
      match d.main.get? id with
      | some file =>
          { d with main := d.main.erase id, backup := d.backup.map (·.insert id file) }
      | none => d
  | .installSegment id =>
      match d.tmp.bind (·.get? id) with
      | some file =>
          { d with main := d.main.insert id file, tmp := d.tmp.map (·.erase id) }
      | none => d
  | .removeFile s id => d.setScratch ((d.scratch s).map (·.erase id)) s
  | .removeDir s => d.setScratch none s
  | .writeMarker => { d with marker := true }
  | .removeMarker => { d with marker := false }

/-- The orders in which the directory listings come: one for each `read_dir` and for
each recursive removal. -/
structure Listing where
  backupLoop : List Nat → List Nat
  installLoop : List Nat → List Nat
  removal : ScratchDir → List Nat → List Nat

/-- A listing names every file once. -/
structure Listing.Fair (l : Listing) : Prop where
  backupLoop : ∀ ids, (l.backupLoop ids).Perm ids
  installLoop : ∀ ids, (l.installLoop ids).Perm ids
  removal : ∀ s ids, (l.removal s ids).Perm ids

/-- Directory listings in id order. -/
def Listing.ascending : Listing := ⟨id, id, fun _ => id⟩

abbrev StoreScript := Script StoreDir FsAction

section Scripts
variable (l : Listing)

def StoreDir.has (s : ScratchDir) (d : StoreDir) : Bool := (d.scratch s).isSome

/-- `fs::remove_dir_all`: the files in listing order, then the directory. -/
def removeDirAll (s : ScratchDir) : StoreScript :=
  seq FsAction.apply
    (each (fun d => l.removal s ((d.scratch s).elim [] SortedMap.keys)) (FsAction.removeFile s))
    (one (.removeDir s))

def removeDirIfExists (s : ScratchDir) : StoreScript :=
  cond (StoreDir.has s) (removeDirAll l s) skip

def removeMarkerIfExists : StoreScript := cond (·.marker) (one .removeMarker) skip

/-- Step 1: the current segments move to a backup that did not exist. -/
def backupOldSegments : StoreScript :=
  cond (StoreDir.has .backup) skip
    (seq FsAction.apply (one (.createDir .backup))
      (each (fun d => l.backupLoop d.main.keys) FsAction.backupSegment))

/-- Step 2: the files of the temporary log move in. -/
def installNewSegments : StoreScript :=
  cond (StoreDir.has .tmp)
    (each (fun d => l.installLoop (d.tmp.elim [] SortedMap.keys)) FsAction.installSegment) skip

/-- Step 3: the scratch directories and the marker go. -/
def cleanUpCompaction : StoreScript :=
  seq FsAction.apply (removeDirIfExists l .tmp)
    (seq FsAction.apply (removeDirIfExists l .backup) removeMarkerIfExists)

def finishPendingCompaction : StoreScript :=
  cond (fun d => !StoreDir.has .tmp d && !StoreDir.has .backup d) removeMarkerIfExists
    (seq FsAction.apply (backupOldSegments l)
      (seq FsAction.apply (installNewSegments l) (cleanUpCompaction l)))

def finishOrDiscardPendingCompaction : StoreScript :=
  seq FsAction.apply
    (cond (·.marker) (finishPendingCompaction l) (removeDirIfExists l .tmp))
    (removeDirIfExists l .placeholder)

end Scripts
end Sietch
