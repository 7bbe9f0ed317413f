import CodeMate.Framework.Table

/-!
# The checkpoint store

The saver of graph states in the database: a checkpoint is stored without the
values of its channels, which are blobs of their own under the channel and its
version (`put`), and the writes of a task are stored under the checkpoint that
they follow (`putWrites`). A checkpoint is read with the blobs that its versions
name (`checkpointTuple`), by its id or as the last one (`getTuple`), or in a
list (`list`).
-/

namespace CodeMate.Agent.Checkpointer

open Framework

/-! ## The library -/

/-- A faithful serializer, with types that are never that of a missing value. -/
structure Serde (α β : Type*) where
  dumpsTyped : α → String × β
  loadsTyped : String × β → α
  faithful : ∀ a, loadsTyped (dumpsTyped a) = a
  typed : ∀ a, (dumpsTyped a).1 ≠ "empty"

structure Config (ν : Type*) where
  threadId : String
  checkpointNs : String
  checkpointId : Option String
  metadata : ν

/-- A checkpoint without the values of its channels. -/
structure CheckpointCopy (ν : Type*) where
  id : String
  channelVersions : String → Option Nat
  /-- Its other fields. -/
  rest : ν

structure Checkpoint (ν : Type*) extends CheckpointCopy ν where
  channelValues : String → Option ν

/-- What the saver takes from the library: how values and checkpoints are
serialized, with the empty bytes, what is stored as metadata, and the indices of
the special channels. -/
structure Library (ν β : Type*) where
  serde : Serde ν β
  checkpoints : Serde (CheckpointCopy ν) β
  noBytes : β
  getCheckpointMetadata : Config ν → ν → ν
  writesIdxMap : String → Option Int

/-! ## Tables -/

structure CheckpointKey where
  threadId : String
  checkpointNs : String
  checkpointId : String
deriving DecidableEq

structure AgentCheckpoint (β : Type*) where
  key : CheckpointKey
  parentCheckpointId : Option String
  checkpoint : String × β
  metadata : String × β

structure BlobKey where
  threadId : String
  checkpointNs : String
  channel : String
  version : String
deriving DecidableEq

structure AgentCheckpointBlob (β : Type*) where
  key : BlobKey
  value : String × β

structure WriteKey where
  checkpoint : CheckpointKey
  taskId : String
  writeIndex : Int
deriving DecidableEq

structure AgentCheckpointWrite (β : Type*) where
  key : WriteKey
  channel : String
  value : String × β
  taskPath : String

structure Store (β : Type*) where
  checkpoints : List (AgentCheckpoint β)
  blobs : List (AgentCheckpointBlob β)
  writes : List (AgentCheckpointWrite β)

def Store.empty {β : Type*} : Store β := ⟨[], [], []⟩

/-- `_version_key` of an integer. -/
def versionKey (version : Nat) : String := Nat.repr version

section

variable {ν β : Type*} (lib : Library ν β)

/-! ## Writing -/

/-- A call of `put`. -/
structure Put (ν : Type*) where
  config : Config ν
  checkpoint : Checkpoint ν
  metadata : ν
  newVersions : List (String × Nat)

namespace Put

variable (p : Put ν)

def key : CheckpointKey := ⟨p.config.threadId, p.config.checkpointNs, p.checkpoint.id⟩

def blobKey (channel : String) (version : Nat) : BlobKey :=
  ⟨p.config.threadId, p.config.checkpointNs, channel, versionKey version⟩

/-- The blob of a channel, also of one without a value. -/
def blob (channel : String) : String × β :=
  match p.checkpoint.channelValues channel with
  | some value => lib.serde.dumpsTyped value
  | none => ("empty", lib.noBytes)

def storeBlob (blobs : List (AgentCheckpointBlob β)) (entry : String × Nat) : List (AgentCheckpointBlob β) :=
  Table.merge AgentCheckpointBlob.key ⟨p.blobKey entry.1 entry.2, p.blob lib entry.1⟩ blobs

def record : AgentCheckpoint β where
  key := p.key
  parentCheckpointId := p.config.checkpointId
  checkpoint := lib.checkpoints.dumpsTyped p.checkpoint.toCheckpointCopy
  metadata := lib.serde.dumpsTyped (lib.getCheckpointMetadata p.config p.metadata)

end Put

def put (s : Store β) (p : Put ν) : Store β :=
  { s with
    blobs := p.newVersions.foldl (p.storeBlob lib) s.blobs
    checkpoints := Table.merge AgentCheckpoint.key (p.record lib) s.checkpoints }

/-- A call of `put_writes`. -/
structure PutWrites (ν : Type*) where
  checkpoint : CheckpointKey
  writes : List (String × ν)
  taskId : String
  taskPath : String

/-- The rows of a call, in its order. -/
def PutWrites.rows (p : PutWrites ν) : List (AgentCheckpointWrite β) :=
  p.writes.zipIdx.map fun ((channel, value), position) =>
    { key := ⟨p.checkpoint, p.taskId, (lib.writesIdxMap channel).getD position⟩
      channel
      value := lib.serde.dumpsTyped value
      taskPath := p.taskPath }

/-- What is stored at an index that is not negative stays. -/
def storeWrite (writes : List (AgentCheckpointWrite β)) (row : AgentCheckpointWrite β) :
    List (AgentCheckpointWrite β) :=
  if (Table.find AgentCheckpointWrite.key writes row.key).isSome ∧ 0 ≤ row.key.writeIndex then writes
  else Table.merge AgentCheckpointWrite.key row writes

def putWrites (s : Store β) (p : PutWrites ν) : Store β := { s with writes := (p.rows lib).foldl storeWrite s.writes }

/-! ## Reading -/

structure CheckpointTuple (ν : Type*) where
  config : CheckpointKey
  checkpoint : Checkpoint ν
  metadata : ν
  parentConfig : Option CheckpointKey
  pendingWrites : List (String × String × ν)

/-- The value that a channel has at a version, if it has one. -/
def channelValue (s : Store β) (key : CheckpointKey) (channel : String) (version : Nat) : Option ν :=
  (Table.find AgentCheckpointBlob.key s.blobs ⟨key.threadId, key.checkpointNs, channel, versionKey version⟩).bind
    fun blob => if blob.value.1 = "empty" then none else some (lib.serde.loadsTyped blob.value)

def writeOrder (a b : AgentCheckpointWrite β) : Bool :=
  a.key.taskId < b.key.taskId || a.key.taskId = b.key.taskId && a.key.writeIndex ≤ b.key.writeIndex

def checkpointTuple (s : Store β) (record : AgentCheckpoint β) : CheckpointTuple ν :=
  let checkpoint := lib.checkpoints.loadsTyped record.checkpoint
  { config := record.key
    checkpoint :=
      { checkpoint with
        channelValues := fun channel =>
          (checkpoint.channelVersions channel).bind (channelValue lib s record.key channel) }
    metadata := lib.serde.loadsTyped record.metadata
    parentConfig :=
      (record.parentCheckpointId.filter (· ≠ "")).map fun parent => { record.key with checkpointId := parent }
    pendingWrites :=
      ((s.writes.filter fun write => write.key.checkpoint = record.key).insertionSort (writeOrder · ·)).map
        fun write => (write.key.taskId, write.channel, lib.serde.loadsTyped write.value) }

/-- `ORDER BY checkpoint_id DESC`. -/
def descending (records : List (AgentCheckpoint β)) : List (AgentCheckpoint β) :=
  records.insertionSort fun a b => b.key.checkpointId ≤ a.key.checkpointId

def getTuple (s : Store β) (threadId checkpointNs : String) (checkpointId : Option String) :
    Option (CheckpointTuple ν) :=
  let records := s.checkpoints.filter fun record =>
    record.key.threadId = threadId && record.key.checkpointNs = checkpointNs
  match checkpointId.filter (· ≠ "") with
  | some id => (records.find? fun record => record.key.checkpointId = id).map (checkpointTuple lib s)
  | none => (descending records).head?.map (checkpointTuple lib s)

/-- What `list` is asked for; `filter` is the comparison with the metadata. -/
structure ListConfig where
  threadId : String
  checkpointNs : Option String
  checkpointId : Option String

def ListConfig.admits (config : ListConfig) (key : CheckpointKey) : Bool :=
  key.threadId = config.threadId && config.checkpointNs.all (· = key.checkpointNs) &&
    (config.checkpointId.filter (· ≠ "")).all (· = key.checkpointId)

def list (s : Store β) (config : Option ListConfig) (filter : ν → Bool) (before : Option String)
    (limit : Option Nat) : List (CheckpointTuple ν) :=
  let records := s.checkpoints.filter fun record =>
    config.all (·.admits record.key) && (before.filter (· ≠ "")).all (record.key.checkpointId < ·)
  let tuples := ((descending records).map (checkpointTuple lib s)).filter fun tuple => filter tuple.metadata
  match limit with
  | some limit => tuples.take limit
  | none => tuples

end

end CodeMate.Agent.Checkpointer
