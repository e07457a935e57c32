import Mathlib.Data.Int.ConditionallyCompleteOrder
import PythonPortfolio.Library.Ballot

/-!
# The Helix state file

`RaftStorage.save_state` writes `node_<id>.tmp`, flushes and syncs it, and renames
it over `node_<id>.state`; `load_state` reads the latter. The model keeps both
files, and the steps of a save are separate so that a crash may fall between any
two of them. A file is either the JSON record of one completed `json.dump` or a
torn prefix of it, which `json.load` rejects.
-/

namespace PythonPortfolio.Helix

open Library

inductive StateFile where
  | record (term : Int) (votedFor : Option Int)
  | torn
deriving DecidableEq

/-- The two files of one `RaftStorage`; `none` is a file that does not exist. -/
structure Disk where
  state : Option StateFile
  temp : Option StateFile
deriving DecidableEq

namespace Disk

/-- No state file yet. -/
def fresh : Disk := ⟨none, none⟩

/-- `open(temp_path, "w")`: the file exists and is not yet a JSON document. -/
def openTemp (d : Disk) : Disk := { d with temp := some .torn }

/-- `json.dump`, `flush` and `fsync` completed. -/
def dumpTemp (d : Disk) (term : Int) (votedFor : Option Int) : Disk :=
  { d with temp := some (.record term votedFor) }

/-- `os.replace(temp_path, path)`. -/
def replaceTemp (d : Disk) : Disk := { state := d.temp, temp := none }

/-- A whole `save_state` that no crash interrupts. -/
def saveState (d : Disk) (term : Int) (votedFor : Option Int) : Disk :=
  ((d.openTemp).dumpTemp term votedFor).replaceTemp

/-- `load_state`: a missing or undecodable file counts as term 0 without a vote. -/
def loadState (d : Disk) : Ballot Int Int :=
  match d.state with
  | none => ⟨0, none⟩
  | some (.record term votedFor) => ⟨term, votedFor⟩
  | some .torn => ⟨0, none⟩

@[simp] theorem loadState_openTemp (d : Disk) : d.openTemp.loadState = d.loadState := rfl

@[simp] theorem loadState_dumpTemp (d : Disk) (term : Int) (votedFor : Option Int) :
    (d.dumpTemp term votedFor).loadState = d.loadState := rfl

@[simp] theorem loadState_saveState (d : Disk) (term : Int) (votedFor : Option Int) :
    (d.saveState term votedFor).loadState = ⟨term, votedFor⟩ := rfl

@[simp] theorem loadState_fresh : fresh.loadState = ⟨0, none⟩ := rfl

end Disk

end PythonPortfolio.Helix
