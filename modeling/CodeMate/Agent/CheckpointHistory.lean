import CodeMate.Agent.Checkpointer

/-!
# What the checkpoint store gives back

A history is a list of calls, the last one first, in which every checkpoint
extends its parent: it lists the channels whose versions are new and has the
values of its parent in all others (`Put.Extends`). The blobs of channels are
shared by all checkpoints of a thread. What is read of a channel is what the
last call wrote at its version (`channelValue_put`), so every checkpoint is read
as it was stored exactly where no two calls write different values to a channel
at one version (`roundTrips_iff`). Two workers that go on from one checkpoint
do so (`fork_mixed`). A write of a task at an index that is not negative stays
the first one that was stored (`find_written`), in every history.
-/

namespace CodeMate.Agent.Checkpointer

open Framework

theorem versionKey_inj {v w : Nat} : versionKey v = versionKey w ↔ v = w := by
  refine ⟨fun h => ?_, congrArg versionKey⟩
  have hdigits : Nat.toDigits 10 v = Nat.toDigits 10 w := by
    rw [← Nat.toList_repr, ← Nat.toList_repr]
    exact congrArg String.toList h
  rw [← Nat.ofDigitChars_ten_toDigits (n := v), hdigits, Nat.ofDigitChars_ten_toDigits]

/-! ## Histories -/

inductive Op (ν : Type*)
  | put (p : Put ν)
  | putWrites (p : PutWrites ν)

section

variable {ν β : Type*} (lib : Library ν β)

def apply (s : Store β) : Op ν → Store β
  | .put p => put lib s p
  | .putWrites p => putWrites lib s p

/-- The store after a history, the last call first. -/
def run : List (Op ν) → Store β
  | [] => .empty
  | op :: earlier => apply lib (run earlier) op

def puts : List (Op ν) → List (Put ν)
  | [] => []
  | .put p :: earlier => p :: puts earlier
  | .putWrites _ :: earlier => puts earlier

/-- The rows that a history wrote for tasks, the first one first. -/
def written : List (Op ν) → List (AgentCheckpointWrite β)
  | [] => []
  | .put _ :: earlier => written earlier
  | .putWrites p :: earlier => written earlier ++ p.rows lib

namespace Put

/-- The checkpoint of `q` is the parent of the one of `p`. -/
structure Follows (p q : Put ν) : Prop where
  threadId : q.config.threadId = p.config.threadId
  checkpointNs : q.config.checkpointNs = p.config.checkpointNs
  parent : p.config.checkpointId = some q.checkpoint.id

/-- The id of a checkpoint is new, its new versions are those that its parent
does not have, and a channel at the version of the parent has its value. -/
structure Extends (earlier : List (Put ν)) (p : Put ν) : Prop where
  id : p.checkpoint.id ≠ ""
  fresh : ∀ q ∈ earlier, q.key ≠ p.key
  parent : p.config.checkpointId ≠ some ""
  listed : ∀ e ∈ p.newVersions, p.checkpoint.channelVersions e.1 = some e.2
  kept : ∀ channel version, p.checkpoint.channelVersions channel = some version → (channel, version) ∉ p.newVersions →
    ∃ q ∈ earlier, p.Follows q ∧ q.checkpoint.channelVersions channel = some version ∧
      q.checkpoint.channelValues channel = p.checkpoint.channelValues channel
  values : ∀ channel, p.checkpoint.channelVersions channel = none → p.checkpoint.channelValues channel = none

end Put

/-- Every checkpoint of a history extends what was stored before it. -/
def Valid : List (Op ν) → Prop
  | [] => True
  | .put p :: earlier => p.Extends (puts earlier) ∧ Valid earlier
  | .putWrites _ :: earlier => Valid earlier

/-- The version of a channel in the parent of a checkpoint. -/
def Put.parentVersion (earlier : List (Put ν)) (p : Put ν) (channel : String) : Nat :=
  ((earlier.find? fun q =>
      q.config.threadId = p.config.threadId && q.config.checkpointNs = p.config.checkpointNs &&
        p.config.checkpointId = some q.checkpoint.id).bind
    fun q => q.checkpoint.channelVersions channel).getD 0

/-- Every new version is the one of the parent plus one, as of `get_next_version`. -/
def Successive : List (Op ν) → Prop
  | [] => True
  | .put p :: earlier => (∀ e ∈ p.newVersions, e.2 = p.parentVersion (puts earlier) e.1 + 1) ∧ Successive earlier
  | .putWrites _ :: earlier => Successive earlier

/-- Where two calls write a channel at one version, they write one value. -/
def Agree (ops : List (Op ν)) : Prop :=
  ∀ p ∈ puts ops, ∀ q ∈ puts ops, q.config.threadId = p.config.threadId →
    q.config.checkpointNs = p.config.checkpointNs → ∀ e ∈ p.newVersions, e ∈ q.newVersions →
      p.checkpoint.channelValues e.1 = q.checkpoint.channelValues e.1

/-- The checkpoint of a call is read as it was given to it. -/
structure ReadBack (s : Store β) (p : Put ν) (tuple : CheckpointTuple ν) : Prop where
  found : getTuple lib s p.config.threadId p.config.checkpointNs (some p.checkpoint.id) = some tuple
  checkpoint : tuple.checkpoint = p.checkpoint
  metadata : tuple.metadata = lib.getCheckpointMetadata p.config p.metadata
  parent : tuple.parentConfig =
    p.config.checkpointId.map fun id => ⟨p.config.threadId, p.config.checkpointNs, id⟩

/-- What is read is what was stored, also in a list, which is in descending
order of the ids and has every checkpoint of a thread, and the first write of a
task at an index that is not negative is kept. -/
structure RoundTrips (ops : List (Op ν)) : Prop where
  tuples : ∀ p ∈ puts ops, ∃ tuple, ReadBack lib (run lib ops) p tuple
  descending : ∀ config filter before limit,
    ((list lib (run lib ops) config filter before limit).map (·.config.checkpointId)).Pairwise (· ≥ ·)
  listed : ∀ config filter before limit, ∀ tuple ∈ list lib (run lib ops) config filter before limit,
    ∃ p ∈ puts ops, ReadBack lib (run lib ops) p tuple
  all : ∀ p ∈ puts ops,
    ∃ tuple ∈ list lib (run lib ops) (some ⟨p.config.threadId, none, none⟩) (fun _ => true) none none,
      ReadBack lib (run lib ops) p tuple
  writes : ∀ key : WriteKey, 0 ≤ key.writeIndex →
    Table.find AgentCheckpointWrite.key (run lib ops).writes key =
      Table.find AgentCheckpointWrite.key (written lib ops) key

/-! ## Blobs -/

variable {lib}

theorem load_blob (p : Put ν) (channel : String) :
    (if (p.blob lib channel).1 = "empty" then none else some (lib.serde.loadsTyped (p.blob lib channel))) =
      p.checkpoint.channelValues channel := by
  unfold Put.blob
  cases p.checkpoint.channelValues channel with
  | none => exact if_pos rfl
  | some value => rw [if_neg (lib.serde.typed value), lib.serde.faithful]

theorem blobKey_eq {p : Put ν} {e : String × Nat} {threadId ns channel : String} {version : Nat} :
    p.blobKey e.1 e.2 = ⟨threadId, ns, channel, versionKey version⟩ ↔
      p.config.threadId = threadId ∧ p.config.checkpointNs = ns ∧ e = (channel, version) := by
  rw [Put.blobKey, BlobKey.mk.injEq, versionKey_inj, Prod.ext_iff]

theorem find_storeBlobs (p : Put ν) (k : BlobKey) : ∀ (es : List (String × Nat)) (blobs : List (AgentCheckpointBlob β)),
    Table.find AgentCheckpointBlob.key (es.foldl (p.storeBlob lib) blobs) k =
      if ∃ e ∈ es, p.blobKey e.1 e.2 = k then some ⟨k, p.blob lib k.channel⟩
      else Table.find AgentCheckpointBlob.key blobs k
  | [], blobs => by simp
  | e :: es, blobs => by
    rw [List.foldl_cons, find_storeBlobs p k es, Put.storeBlob, Table.find_merge]
    by_cases hk : p.blobKey e.1 e.2 = k
    · subst hk
      by_cases hes : ∃ e' ∈ es, p.blobKey e'.1 e'.2 = p.blobKey e.1 e.2
      · rw [if_pos hes, if_pos ⟨e, .head _, rfl⟩]
      · rw [if_neg hes, if_pos rfl, if_pos ⟨e, .head _, rfl⟩]
        rfl
    · have hcons : (∃ e' ∈ e :: es, p.blobKey e'.1 e'.2 = k) ↔ ∃ e' ∈ es, p.blobKey e'.1 e'.2 = k := by
        simp [hk]
      rw [if_neg hk]
      simp only [hcons]

/-- A channel has the value that the call wrote at its version, or the one it had. -/
theorem channelValue_put (s : Store β) (p : Put ν) (key : CheckpointKey) (channel : String) (version : Nat) :
    channelValue lib (put lib s p) key channel version =
      if p.config.threadId = key.threadId ∧ p.config.checkpointNs = key.checkpointNs ∧
          (channel, version) ∈ p.newVersions then p.checkpoint.channelValues channel
      else channelValue lib s key channel version := by
  have hwrote : (∃ e ∈ p.newVersions,
      p.blobKey e.1 e.2 = ⟨key.threadId, key.checkpointNs, channel, versionKey version⟩) ↔
      p.config.threadId = key.threadId ∧ p.config.checkpointNs = key.checkpointNs ∧
        (channel, version) ∈ p.newVersions := by
    simp only [blobKey_eq]
    refine ⟨fun ⟨e, he, ht, hn, hsame⟩ => ⟨ht, hn, hsame ▸ he⟩, fun ⟨ht, hn, he⟩ => ⟨_, he, ht, hn, rfl⟩⟩
  unfold channelValue put
  rw [find_storeBlobs]
  by_cases hp : p.config.threadId = key.threadId ∧ p.config.checkpointNs = key.checkpointNs ∧
      (channel, version) ∈ p.newVersions
  · rw [if_pos (hwrote.mpr hp), if_pos hp]
    exact load_blob p channel
  · rw [if_neg (hwrote.not.mpr hp), if_neg hp]

variable {ops : List (Op ν)} {p : Put ν} {channel : String} {version : Nat}

/-- A channel has its value from the call that wrote its version. -/
theorem writer (h : Valid ops) (hp : p ∈ puts ops) (hv : p.checkpoint.channelVersions channel = some version) :
    ∃ a ∈ puts ops, a.config.threadId = p.config.threadId ∧ a.config.checkpointNs = p.config.checkpointNs ∧
      (channel, version) ∈ a.newVersions ∧
        a.checkpoint.channelValues channel = p.checkpoint.channelValues channel := by
  induction ops generalizing p with
  | nil => exact absurd hp List.not_mem_nil
  | cons op earlier ih =>
    cases op with
    | putWrites _ => exact ih h hp hv
    | put new =>
      rcases List.mem_cons.mp hp with rfl | hp
      · by_cases hnew : (channel, version) ∈ p.newVersions
        · exact ⟨p, .head _, rfl, rfl, hnew, rfl⟩
        · obtain ⟨q, hq, hfollows, hqv, hvalue⟩ := h.1.kept channel version hv hnew
          obtain ⟨a, ha, ht, hn, hmem, hsame⟩ := ih h.2 hq hqv
          exact ⟨a, .tail _ ha, ht.trans hfollows.threadId, hn.trans hfollows.checkpointNs, hmem, hsame.trans hvalue⟩
      · obtain ⟨a, ha, hwrote⟩ := ih h.2 hp hv
        exact ⟨a, .tail _ ha, hwrote⟩

theorem Agree.tail {op : Op ν} (h : Agree (op :: ops)) : Agree ops := by
  cases op with
  | put new => exact fun p hp q hq => h p (.tail _ hp) q (.tail _ hq)
  | putWrites _ => exact h

/-- Where the calls agree, every channel of every checkpoint has its value. -/
theorem channelValue_run (h : Valid ops) (ha : Agree ops) (hp : p ∈ puts ops)
    (hv : p.checkpoint.channelVersions channel = some version) :
    channelValue lib (run lib ops) p.key channel version = p.checkpoint.channelValues channel := by
  induction ops generalizing p with
  | nil => exact absurd hp List.not_mem_nil
  | cons op earlier ih =>
    cases op with
    | putWrites _ => exact ih h ha hp hv
    | put new =>
      rw [run, apply, channelValue_put]
      by_cases hnew : new.config.threadId = p.key.threadId ∧ new.config.checkpointNs = p.key.checkpointNs ∧
          (channel, version) ∈ new.newVersions
      · rw [if_pos hnew]
        obtain ⟨a, hmem, ht, hn, hwrote, hvalue⟩ := writer h hp hv
        rw [← hvalue]
        exact ha new (.head _) a hmem (ht.trans hnew.1.symm) (hn.trans hnew.2.1.symm) _ hnew.2.2 hwrote
      · rw [if_neg hnew]
        rcases List.mem_cons.mp hp with rfl | hp
        · obtain ⟨q, hq, hfollows, hqv, hvalue⟩ := h.1.kept channel version hv fun hmem => hnew ⟨rfl, rfl, hmem⟩
          rw [← hvalue, ← ih h.2 ha.tail hq hqv]
          unfold channelValue
          rw [show p.key.threadId = q.key.threadId from hfollows.threadId.symm,
            show p.key.checkpointNs = q.key.checkpointNs from hfollows.checkpointNs.symm]
        · exact ih h.2 ha.tail hp hv

/-! ## Checkpoints -/

theorem find_record (h : Valid ops) (hp : p ∈ puts ops) :
    Table.find AgentCheckpoint.key (run lib ops).checkpoints p.key = some (p.record lib) := by
  induction ops with
  | nil => exact absurd hp List.not_mem_nil
  | cons op earlier ih =>
    cases op with
    | putWrites _ => exact ih h hp
    | put new =>
      rw [run, apply, put, Table.find_merge]
      rcases List.mem_cons.mp hp with rfl | hp
      · exact if_pos rfl
      · rw [show (new.record lib).key = new.key from rfl, if_neg (h.1.fresh p hp).symm]
        exact ih h.2 hp

theorem mem_records {record : AgentCheckpoint β} (h : record ∈ (run lib ops).checkpoints) :
    ∃ p ∈ puts ops, p.record lib = record := by
  induction ops with
  | nil => exact absurd h List.not_mem_nil
  | cons op earlier ih =>
    cases op with
    | putWrites _ => exact ih h
    | put new =>
      rcases Table.mem_merge.mp h with rfl | ⟨h, -⟩
      · exact ⟨new, .head _, rfl⟩
      · obtain ⟨p, hp, hrecord⟩ := ih h
        exact ⟨p, .tail _ hp, hrecord⟩

theorem extends_of_mem (h : Valid ops) (hp : p ∈ puts ops) : ∃ earlier, p.Extends earlier := by
  induction ops with
  | nil => exact absurd hp List.not_mem_nil
  | cons op earlier ih =>
    cases op with
    | putWrites _ => exact ih h hp
    | put new =>
      rcases List.mem_cons.mp hp with rfl | hp
      · exact ⟨puts earlier, h.1⟩
      · exact ih h.2 hp

theorem getTuple_id (s : Store β) (key : CheckpointKey) (hid : key.checkpointId ≠ "") :
    getTuple lib s key.threadId key.checkpointNs (some key.checkpointId) =
      (Table.find AgentCheckpoint.key s.checkpoints key).map (checkpointTuple lib s) := by
  have hsame : (fun record : AgentCheckpoint β => decide (record.key.threadId = key.threadId) &&
      decide (record.key.checkpointNs = key.checkpointNs) && decide (record.key.checkpointId = key.checkpointId)) =
      fun record => decide (record.key = key) := by
    funext record
    obtain ⟨threadId, ns, id⟩ := record.key
    obtain ⟨threadId', ns', id'⟩ := key
    simp [Bool.and_assoc]
  unfold getTuple
  rw [Option.filter_some, if_pos (decide_eq_true hid)]
  dsimp only
  rw [List.find?_filter, Table.find]
  simp only [Bool.decide_and, Bool.decide_eq_true]
  rw [hsame]

/-- What is read of a checkpoint is what was stored but for the values of its channels. -/
theorem readBack (h : Valid ops) (hp : p ∈ puts ops)
    (hvalues : ∀ channel version, p.checkpoint.channelVersions channel = some version →
      channelValue lib (run lib ops) p.key channel version = p.checkpoint.channelValues channel) :
    ReadBack lib (run lib ops) p (checkpointTuple lib (run lib ops) (p.record lib)) where
  found := by
    obtain ⟨_, hext⟩ := extends_of_mem h hp
    refine (getTuple_id (run lib ops) p.key hext.id).trans ?_
    rw [find_record h hp]
    rfl
  checkpoint := by
    obtain ⟨_, hext⟩ := extends_of_mem h hp
    have hchannels : (fun channel => (p.checkpoint.channelVersions channel).bind
        (channelValue lib (run lib ops) p.key channel)) = p.checkpoint.channelValues := by
      funext channel
      cases hv : p.checkpoint.channelVersions channel with
      | none => exact (hext.values channel hv).symm
      | some version => exact hvalues channel version hv
    unfold checkpointTuple
    dsimp only [Put.record]
    rw [lib.checkpoints.faithful, hchannels]
  metadata := lib.serde.faithful _
  parent := by
    obtain ⟨_, hext⟩ := extends_of_mem h hp
    have hsome : p.config.checkpointId.filter (· ≠ "") = p.config.checkpointId := by
      cases hid : p.config.checkpointId with
      | none => rfl
      | some id =>
        have hne : id ≠ "" := fun hempty => hext.parent (by rw [hid, hempty])
        rw [Option.filter_some, if_pos (by simpa using hne)]
    show ((p.config.checkpointId.filter (· ≠ "")).map _) = _
    rw [hsome]
    rfl

/-! ## Lists -/

theorem descending_pairwise (records : List (AgentCheckpoint β)) :
    (descending records).Pairwise fun a b => a.key.checkpointId ≥ b.key.checkpointId := by
  have htrans : IsTrans (AgentCheckpoint β) fun a b => b.key.checkpointId ≤ a.key.checkpointId :=
    ⟨fun _ _ _ hab hbc => String.le_trans hbc hab⟩
  have htotal : Std.Total fun a b : AgentCheckpoint β => b.key.checkpointId ≤ a.key.checkpointId :=
    ⟨fun _ _ => String.le_total _ _⟩
  exact List.pairwise_insertionSort _ records

theorem list_descending (s : Store β) (config : Option ListConfig) (filter : ν → Bool) (before : Option String)
    (limit : Option Nat) :
    ((list lib s config filter before limit).map (·.config.checkpointId)).Pairwise (· ≥ ·) := by
  have htuples : ∀ records : List (AgentCheckpoint β),
      ((((descending records).map (checkpointTuple lib s)).filter fun tuple => filter tuple.metadata).map
        (·.config.checkpointId)).Pairwise (· ≥ ·) := by
    intro records
    refine List.pairwise_map.mpr (List.Pairwise.sublist List.filter_sublist ?_)
    exact List.pairwise_map.mpr (descending_pairwise records)
  unfold list
  dsimp only
  split
  · exact (htuples _).sublist ((List.take_sublist _ _).map _)
  · exact htuples _

theorem mem_list {s : Store β} {config : Option ListConfig} {filter : ν → Bool} {before : Option String}
    {limit : Option Nat} {tuple : CheckpointTuple ν} (h : tuple ∈ list lib s config filter before limit) :
    ∃ record ∈ s.checkpoints, checkpointTuple lib s record = tuple := by
  have htuples : ∀ records : List (AgentCheckpoint β), (∀ record ∈ records, record ∈ s.checkpoints) →
      tuple ∈ ((descending records).map (checkpointTuple lib s)).filter (fun tuple => filter tuple.metadata) →
      ∃ record ∈ s.checkpoints, checkpointTuple lib s record = tuple := by
    intro records hrecords hmem
    obtain ⟨record, hrecord, rfl⟩ := List.mem_map.mp (List.mem_filter.mp hmem).1
    exact ⟨record, hrecords record ((List.mem_insertionSort _).mp hrecord), rfl⟩
  unfold list at h
  dsimp only at h
  split at h
  · exact htuples _ (fun _ hr => (List.mem_filter.mp hr).1) (List.mem_of_mem_take h)
  · exact htuples _ (fun _ hr => (List.mem_filter.mp hr).1) h

theorem mem_list_thread {s : Store β} {record : AgentCheckpoint β} (h : record ∈ s.checkpoints) :
    checkpointTuple lib s record ∈ list lib s (some ⟨record.key.threadId, none, none⟩) (fun _ => true) none none := by
  unfold list
  refine List.mem_filter.mpr ⟨List.mem_map_of_mem ((List.mem_insertionSort _).mpr ?_), rfl⟩
  refine List.mem_filter.mpr ⟨h, ?_⟩
  simp [ListConfig.admits]

/-! ## Writes of tasks -/

theorem find_storeWrite {key : WriteKey} (hkey : 0 ≤ key.writeIndex) (ws : List (AgentCheckpointWrite β))
    (row : AgentCheckpointWrite β) :
    Table.find AgentCheckpointWrite.key (storeWrite ws row) key =
      (Table.find AgentCheckpointWrite.key ws key).or (if row.key = key then some row else none) := by
  unfold storeWrite
  by_cases hrow : row.key = key
  · subst hrow
    rw [if_pos rfl]
    cases hfound : Table.find AgentCheckpointWrite.key ws row.key with
    | none =>
      rw [if_neg (by simp), Table.find_merge, if_pos rfl]
      rfl
    | some old =>
      rw [if_pos ⟨rfl, hkey⟩, hfound]
      rfl
  · rw [if_neg hrow, Option.or_none]
    split
    · rfl
    · rw [Table.find_merge, if_neg hrow]

theorem find_foldl_storeWrite {key : WriteKey} (hkey : 0 ≤ key.writeIndex) :
    ∀ (rows ws : List (AgentCheckpointWrite β)),
      Table.find AgentCheckpointWrite.key (rows.foldl storeWrite ws) key =
        (Table.find AgentCheckpointWrite.key ws key).or (Table.find AgentCheckpointWrite.key rows key)
  | [], ws => (Option.or_none).symm
  | row :: rows, ws => by
    rw [List.foldl_cons, find_foldl_storeWrite hkey rows, find_storeWrite hkey, Option.or_assoc]
    congr 1
    rw [Table.find, Table.find, List.find?_cons]
    by_cases hrow : row.key = key
    · rw [if_pos hrow, decide_eq_true hrow]
      rfl
    · rw [if_neg hrow, decide_eq_false hrow]
      rfl

/-- The first write at an index that is not negative is kept. -/
theorem find_written {key : WriteKey} (hkey : 0 ≤ key.writeIndex) : ∀ ops : List (Op ν),
    Table.find AgentCheckpointWrite.key (run lib ops).writes key =
      Table.find AgentCheckpointWrite.key (written lib ops) key
  | [] => rfl
  | .put _ :: earlier => find_written hkey earlier
  | .putWrites p :: earlier => by
    have hfind : Table.find AgentCheckpointWrite.key (written lib earlier ++ p.rows lib) key =
        (Table.find AgentCheckpointWrite.key (written lib earlier) key).or
          (Table.find AgentCheckpointWrite.key (p.rows lib) key) := List.find?_append
    rw [run, apply, putWrites, find_foldl_storeWrite hkey, find_written hkey earlier, written, hfind]

/-! ## The round trip -/

/-- Two calls that are read back as they were stored agree. -/
theorem agree_of_readBack (h : Valid ops) (hback : ∀ p ∈ puts ops, ∃ tuple, ReadBack lib (run lib ops) p tuple) :
    Agree ops := by
  have hread : ∀ p ∈ puts ops, ∀ e ∈ p.newVersions,
      channelValue lib (run lib ops) p.key e.1 e.2 = p.checkpoint.channelValues e.1 := by
    intro p hp e he
    obtain ⟨_, hext⟩ := extends_of_mem h hp
    obtain ⟨tuple, hfound, hcheckpoint, -, -⟩ := hback p hp
    have htuple : checkpointTuple lib (run lib ops) (p.record lib) = tuple := by
      have hget : (Table.find AgentCheckpoint.key (run lib ops).checkpoints p.key).map
          (checkpointTuple lib (run lib ops)) = some tuple :=
        (getTuple_id (run lib ops) p.key hext.id).symm.trans hfound
      rw [find_record h hp] at hget
      exact Option.some.inj hget
    rw [← hcheckpoint, ← htuple]
    unfold checkpointTuple
    dsimp only [Put.record]
    rw [lib.checkpoints.faithful, hext.listed e he]
    rfl
  intro p hp q hq hthread hns e hep heq
  have hkeys : channelValue lib (run lib ops) q.key e.1 e.2 = channelValue lib (run lib ops) p.key e.1 e.2 := by
    unfold channelValue
    rw [show q.key.threadId = p.key.threadId from hthread, show q.key.checkpointNs = p.key.checkpointNs from hns]
  exact (hread p hp e hep).symm.trans (hkeys.symm.trans (hread q hq e heq))

/-- The store gives back what was put into it exactly where no two calls write
different values to a channel at one version. -/
theorem roundTrips_iff (h : Valid ops) : RoundTrips lib ops ↔ Agree ops := by
  refine ⟨fun hr => agree_of_readBack h hr.tuples, fun ha => ?_⟩
  have hback : ∀ p ∈ puts ops, ReadBack lib (run lib ops) p (checkpointTuple lib (run lib ops) (p.record lib)) :=
    fun p hp => readBack h hp fun channel version hv => channelValue_run h ha hp hv
  refine ⟨fun p hp => ⟨_, hback p hp⟩, list_descending (run lib ops), ?_, ?_, fun key hkey => find_written hkey ops⟩
  · intro config filter before limit tuple hmem
    obtain ⟨record, hrecord, rfl⟩ := mem_list hmem
    obtain ⟨p, hp, rfl⟩ := mem_records hrecord
    exact ⟨p, hp, hback p hp⟩
  · intro p hp
    have hrecord : p.record lib ∈ (run lib ops).checkpoints := (Table.find_some (find_record h hp)).1
    exact ⟨_, mem_list_thread hrecord, hback p hp⟩

end

namespace Sample

def lib : Library Nat (Nat ⊕ CheckpointCopy Nat) where
  serde :=
    { dumpsTyped n := ("int", .inl n)
      loadsTyped typed := match typed.2 with | .inl n => n | .inr _ => 0
      faithful _ := rfl
      typed _ := by simp }
  checkpoints :=
    { dumpsTyped c := ("dict", .inr c)
      loadsTyped typed := match typed.2 with | .inl _ => ⟨"", fun _ => none, 0⟩ | .inr c => c
      faithful _ := rfl
      typed _ := by simp }
  noBytes := .inl 0
  getCheckpointMetadata _ metadata := metadata
  writesIdxMap channel := if channel = "__error__" then some (-1) else none

/-- A checkpoint with one channel. -/
def call (parent : Option String) (id : String) (version value : Nat) : Put Nat where
  config := ⟨"run-1", "", parent, 0⟩
  checkpoint :=
    { id
      channelVersions channel := if channel = "value" then some version else none
      rest := 0
      channelValues channel := if channel = "value" then some value else none }
  metadata := 7
  newVersions := [("value", version)]

theorem call_extends {parent : Option String} {id : String} {version value : Nat} {earlier : List (Put Nat)}
    (hid : id ≠ "") (hparent : parent ≠ some "") (hfresh : ∀ q ∈ earlier, q.key ≠ ⟨"run-1", "", id⟩) :
    (call parent id version value).Extends earlier := by
  refine ⟨hid, hfresh, hparent, fun e he => ?_, fun channel v hv hnew => ?_, fun channel hv => ?_⟩
  · obtain rfl := List.mem_singleton.mp he
    rfl
  · have hv : (if channel = "value" then some version else none) = some v := hv
    split at hv
    · next hchannel =>
      obtain rfl := Option.some.inj hv
      exact absurd (hchannel ▸ List.mem_singleton_self _) hnew
    · exact absurd hv.symm (Option.some_ne_none v)
  · have hv : (if channel = "value" then some version else none) = none := hv
    show (if channel = "value" then some value else none) = none
    split at hv
    · exact absurd hv (Option.some_ne_none version)
    · next hchannel => exact if_neg hchannel

/-- A checkpoint, another one that follows it, and a write of a task, stored twice. -/
def line : List (Op Nat) :=
  [.putWrites ⟨⟨"run-1", "", "2"⟩, [("value", 31)], "task", ""⟩,
    .putWrites ⟨⟨"run-1", "", "2"⟩, [("value", 30)], "task", ""⟩,
    .put (call (some "1") "2" 2 20), .put (call none "1" 1 10)]

/-- Two workers go on from one checkpoint. -/
def fork : List (Op Nat) :=
  [.put (call (some "1") "3" 2 30), .put (call (some "1") "2" 2 20), .put (call none "1" 1 10)]

theorem line_valid : Valid line :=
  ⟨call_extends (by decide) (by decide) (by decide), call_extends (by decide) (by decide) (by decide), trivial⟩

theorem fork_valid : Valid fork :=
  ⟨call_extends (by decide) (by decide) (by decide), call_extends (by decide) (by decide) (by decide),
    call_extends (by decide) (by decide) (by decide), trivial⟩

/-- The checkpoint of one worker is read with the value of the other one. -/
theorem fork_mixed : Valid fork ∧ Successive fork ∧ ¬ RoundTrips lib fork := by
  refine ⟨fork_valid, ⟨by decide, by decide, by decide, trivial⟩, fun h => ?_⟩
  have hview : (getTuple lib (run lib fork) "run-1" "" (some "2")).map
      (fun tuple => tuple.checkpoint.channelValues "value") = some (some 30) := by decide +kernel
  obtain ⟨tuple, hfound, hcheckpoint, -, -⟩ := h.tuples (call (some "1") "2" 2 20) (.tail _ (.head _))
  have hfound : getTuple lib (run lib fork) "run-1" "" (some "2") = some tuple := hfound
  rw [hfound, Option.map_some, hcheckpoint] at hview
  exact absurd hview (by decide)

theorem line_agree : Agree line := by
  intro p hp q hq _ _ e hep heq
  rcases List.mem_cons.mp hp with rfl | hp
  · rcases List.mem_cons.mp hq with rfl | hq
    · rfl
    · obtain rfl := List.mem_singleton.mp hq
      obtain rfl := List.mem_singleton.mp hep
      exact absurd heq (by decide)
  · obtain rfl := List.mem_singleton.mp hp
    obtain rfl := List.mem_singleton.mp hep
    rcases List.mem_cons.mp hq with rfl | hq
    · exact absurd heq (by decide)
    · obtain rfl := List.mem_singleton.mp hq
      rfl

theorem roundTrips_iff_sample : RoundTrips lib line ∧ (puts line).length = 2 :=
  ⟨(roundTrips_iff line_valid).mpr line_agree, rfl⟩

end Sample

end CodeMate.Agent.Checkpointer
