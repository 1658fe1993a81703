import Z1Kv.Store.Disk
import Z1Kv.Wal.Log

/-! Checkpoint files and the pointer to the latest one. Both are replaced by an
atomic rename, so a checkpoint is there as a whole or not at all; the byte
envelope and the timestamp nobody reads are left out. -/
namespace Z1Kv

structure CheckpointState where
  checkpointId : TxnId
  committedTxn : TxnId
  committedHistory : List (TxnId × Nat)
  deriving DecidableEq

/-- The directory `checkpoints`: `ckpt_{id}.bin` files and `_LATEST`. -/
structure CheckpointDir where
  files : FinMap TxnId CheckpointState := ∅
  latest : Option TxnId := none

/-- Outcomes of the durable writes that an operation may make: patch files by
id, the checkpoint file, the pointer to it. -/
structure Writes where
  patch : Nat → PatchOutcome
  checkpointFile : Bool
  latestPointer : Bool

def Writes.succeed : Writes := ⟨fun _ => .succeeds, true, true⟩

namespace CheckpointDir

/-- Write the file, then the pointer. -/
def write (ckpts : CheckpointDir) (writes : Writes) (state : CheckpointState) :
    Except Z1Error Unit × CheckpointDir :=
  if writes.checkpointFile = false then (.error (.io .other), ckpts)
  else
    let ckpts := { ckpts with files := AList.insert state.checkpointId state ckpts.files }
    if writes.latestPointer = false then (.error (.io .other), ckpts)
    else (.ok (), { ckpts with latest := some state.checkpointId })

def loadLatest (ckpts : CheckpointDir) : Option CheckpointState :=
  ckpts.latest.bind fun id => AList.lookup id ckpts.files

/-- Recovery baseline: the committed id and history of the latest checkpoint. -/
def recoveryBaseline (ckpts : CheckpointDir) : Option (TxnId × List (TxnId × Nat)) :=
  ckpts.loadLatest.map fun s => (s.committedTxn, s.committedHistory)

end CheckpointDir
end Z1Kv
