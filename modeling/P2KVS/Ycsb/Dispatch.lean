import P2KVS.Ycsb.Ledger

/-!
# The dispatcher of `ycsb.cpp`

`main` of `ycsb.cpp` (with `MULTISCAN`) turns the commands of a trace into enqueues: a read or a
write goes to the queue of its key's residue, a scan goes to every queue, and each queue gets an end
marker behind the trace. `pipeline` is the whole program, the dispatcher together with the
`QUEUE_NUM` workers.

`requests` lists what one queue receives, and `content_eq` says that the rows hold exactly that. The
rest places commands: the request of the command behind `before` stands at position `position
before`, and the writes in front of it are the writes of `before`.
-/

namespace P2KVS.Ycsb

open Channel History

/-- `command`: one line of the trace. -/
structure Command where
  key : UInt64
  scanSize : Int16
  cmd : Char
  deriving DecidableEq, Repr

/-- The compile-time configuration. -/
structure Config where
  queueNum : Nat
  batchSize : Nat
  keySize : Nat
  valueSize : Nat
  totalNum : Nat
  expandQueueSize : Nat
  queueNum_pos : 0 < queueNum

namespace Config

/-- `WRITE_BATCH_SIZE`. -/
def writeBatchSize (cfg : Config) : Nat :=
  if cfg.batchSize = 1 then 1 else 4096 / (cfg.keySize + cfg.valueSize)

/-- The number of slots in a row of `qs`. -/
def rowLength (cfg : Config) : Nat :=
  cfg.totalNum / cfg.queueNum + cfg.expandQueueSize

/-- The value that every worker writes. -/
def value (cfg : Config) : Slice :=
  List.replicate cfg.valueSize charZero

/-- What a worker with the instance `opened` is started with. -/
def params (cfg : Config) (opened : Instance) : Params where
  batchSize := cfg.batchSize
  writeBatchSize := cfg.writeBatchSize
  keySize := cfg.keySize
  value := cfg.value
  opened := opened

/-- `q_num = key % (unsigned)QUEUE_NUM`. -/
def queueOf (cfg : Config) (key : UInt64) : Nat :=
  key.toNat % cfg.queueNum

/-- Keys are routed to existing queues. -/
theorem queueOf_lt (cfg : Config) (key : UInt64) : cfg.queueOf key < cfg.queueNum :=
  Nat.mod_lt _ cfg.queueNum_pos

end Config

/-- An update or an insert. -/
def Command.isPut (c : Command) : Bool :=
  c.cmd = 'U' || c.cmd = 'I'

/-- The stores of a point request: `scan_size` is not stored. -/
def fillPoint (ops : Nat) (key : UInt64) (write : Bool) (slot : AsyncRequest) : AsyncRequest :=
  { slot with seq := ops, key := key, write := write }

/-- The stores of a scan request. -/
def fillScan (ops : Nat) (key : UInt64) (scanSize : Int) (slot : AsyncRequest) : AsyncRequest :=
  { slot with seq := ops, key := key, scanSize := scanSize, write := false }

/-- The stores of an end marker. -/
def fillEnd (slot : AsyncRequest) : AsyncRequest :=
  { slot with seq := -1, key := -1 }

/-- The enqueues of one command, when `ops` commands have been issued before it. -/
def issue (cfg : Config) (ops : Nat) (c : Command) : List (Enqueue AsyncRequest) :=
  if c.cmd = 'R' then [⟨cfg.queueOf c.key, fillPoint ops c.key false⟩]
  else if c.cmd = 'U' ∨ c.cmd = 'I' then [⟨cfg.queueOf c.key, fillPoint ops c.key true⟩]
  else if c.cmd = 'D' then []
  else if c.cmd = 'S' then broadcast cfg.queueNum (fillScan ops c.key c.scanSize.toInt)
  else []

/-- The loop `while (i < line_num)` over the trace. -/
def issueAll (cfg : Config) : Nat → List Command → List (Enqueue AsyncRequest)
  | _, [] => []
  | ops, c :: rest => issue cfg ops c ++ issueAll cfg (ops + 1) rest

/-- A command is enqueued only into existing queues. -/
theorem issue_routed {cfg : Config} {ops : Nat} {c : Command} :
    ∀ e ∈ issue cfg ops c, e.queue < cfg.queueNum := by
  intro e he
  unfold issue at he
  split_ifs at he
  · obtain rfl := List.mem_singleton.mp he
    exact cfg.queueOf_lt _
  · obtain rfl := List.mem_singleton.mp he
    exact cfg.queueOf_lt _
  · cases he
  · exact broadcast_routed e he
  · cases he

/-- The trace is enqueued only into existing queues. -/
theorem issueAll_routed {cfg : Config} {ops : Nat} {trace : List Command} :
    ∀ e ∈ issueAll cfg ops trace, e.queue < cfg.queueNum := by
  induction trace generalizing ops with
  | nil => simp [issueAll]
  | cons c rest ih =>
      intro e he
      rcases List.mem_append.mp he with he | he
      · exact issue_routed e he
      · exact ih e he

/-- The program `ycsb.cpp` on a trace, with the instances as they are when it starts. -/
def pipeline (cfg : Config) (trace : List Command) (init : Nat → Instance) :
    Pipeline AsyncRequest Worker Choice where
  queueNum := cfg.queueNum
  row := cfg.rowLength
  blank := .blank
  program := issueAll cfg 0 trace ++ broadcast cfg.queueNum fillEnd
  consumer := fun q => Worker.consumer (cfg.params (init q))
  start := fun q => Worker.start (cfg.params (init q))
  routed := by
    intro e he
    rcases List.mem_append.mp he with he | he
    · exact issueAll_routed e he
    · exact broadcast_routed e he
  start_synced := fun _ => ⟨Nat.le_refl _, by simp [Worker.start]⟩

/-- What one command puts into queue `q`. -/
def request (cfg : Config) (q ops : Nat) (c : Command) : Option AsyncRequest :=
  if c.cmd = 'R' then
    if cfg.queueOf c.key = q then some (fillPoint ops c.key false .blank) else none
  else if c.isPut then
    if cfg.queueOf c.key = q then some (fillPoint ops c.key true .blank) else none
  else if c.cmd = 'S' then some (fillScan ops c.key c.scanSize.toInt .blank)
  else none

/-- What a trace puts into queue `q`, when `ops` commands have been issued before it. -/
def requests (cfg : Config) (q : Nat) : Nat → List Command → List AsyncRequest
  | _, [] => []
  | ops, c :: rest => (request cfg q ops c).toList ++ requests cfg q (ops + 1) rest

/-- The enqueues of a command reach queue `q` as its request there. -/
theorem issue_content {cfg : Config} {q : Nat} (hq : q < cfg.queueNum) (ops : Nat) (c : Command) :
    ((issue cfg ops c).filter fun e => e.queue = q).map (fun e => e.fill .blank) =
      (request cfg q ops c).toList := by
  have hput : c.isPut = true ↔ c.cmd = 'U' ∨ c.cmd = 'I' := by simp [Command.isPut]
  have hroute : ∀ fill : AsyncRequest → AsyncRequest,
      ([(⟨cfg.queueOf c.key, fill⟩ : Enqueue AsyncRequest)].filter fun e => e.queue = q).map
          (fun e => e.fill .blank) =
        (if cfg.queueOf c.key = q then some (fill .blank) else none).toList := by
    intro fill
    by_cases h : cfg.queueOf c.key = q <;> simp [h]
  simp only [issue, request, hput]
  by_cases hread : c.cmd = 'R'
  · simpa only [if_pos hread] using hroute _
  by_cases hwrite : c.cmd = 'U' ∨ c.cmd = 'I'
  · simpa only [if_neg hread, if_pos hwrite] using hroute _
  by_cases hdelete : c.cmd = 'D'
  · have hscan : c.cmd ≠ 'S' := by simp [hdelete]
    simp [if_neg hread, if_neg hwrite, if_neg hscan]
  by_cases hscan : c.cmd = 'S'
  · simp [if_neg hread, if_neg hwrite, if_neg hdelete, if_pos hscan, filter_broadcast _ hq]
  · simp [if_neg hread, if_neg hwrite, if_neg hscan]

/-- The row of queue `q` holds the requests of the trace and the end marker. -/
theorem content_eq {cfg : Config} {q : Nat} (hq : q < cfg.queueNum) (trace : List Command)
    (init : Nat → Instance) :
    (pipeline cfg trace init).content q = requests cfg q 0 trace ++ [fillEnd .blank] := by
  have hissue : ∀ ops, ((issueAll cfg ops trace).filter fun e => e.queue = q).map
      (fun e => e.fill .blank) = requests cfg q ops trace := by
    induction trace with
    | nil => exact fun _ => rfl
    | cons c rest ih =>
        intro ops
        rw [issueAll, requests, List.filter_append, List.map_append, issue_content hq, ih]
  refine (Pipeline.content_of_broadcast rfl hq).trans (congrArg (· ++ [fillEnd .blank]) ?_)
  exact hissue 0

section Placement

variable {cfg : Config} {q : Nat}

/-- The requests of a concatenated trace. -/
theorem requests_append (ops : Nat) (before rest : List Command) :
    requests cfg q ops (before ++ rest) =
      requests cfg q ops before ++ requests cfg q (ops + before.length) rest := by
  induction before generalizing ops with
  | nil => rfl
  | cons c before ih =>
      rw [List.cons_append, requests, requests, ih, List.append_assoc, List.length_cons,
        Nat.add_right_comm, Nat.add_assoc ops]

/-- No request of a trace is an end marker. -/
theorem requests_real (ops : Nat) (trace : List Command) :
    ∀ r ∈ requests cfg q ops trace, r.seq ≠ -1 := by
  induction trace generalizing ops with
  | nil => simp [requests]
  | cons c rest ih =>
      intro r hr
      rcases List.mem_append.mp hr with hr | hr
      · rw [Option.mem_toList, request] at hr
        split_ifs at hr <;> obtain rfl := Option.some.inj hr <;> simp [fillPoint, fillScan]
      · exact ih (ops + 1) r hr

/-- The commands whose write goes to queue `q`. -/
def putTo (cfg : Config) (q : Nat) (c : Command) : Bool :=
  c.isPut && cfg.queueOf c.key = q

/-- What `putTo` decides. -/
theorem putTo_iff {c : Command} :
    putTo cfg q c = true ↔ c.isPut = true ∧ c.key.toNat % cfg.queueNum = q := by
  rw [putTo, Bool.and_eq_true, decide_eq_true_eq]
  rfl

/-- The write requests of queue `q` are those of the updates and inserts of its residue class. -/
theorem requests_writes {β : Type*} (f : UInt64 → β) (ops : Nat) (trace : List Command) :
    ((requests cfg q ops trace).filter AsyncRequest.write).map (fun r => f r.key) =
      (trace.filter (putTo cfg q)).map (fun c => f c.key) := by
  induction trace generalizing ops with
  | nil => rfl
  | cons c rest ih =>
      have hhead : ((request cfg q ops c).toList.filter AsyncRequest.write).map (fun r => f r.key) =
          if putTo cfg q c then [f c.key] else [] := by
        have hread : c.cmd = 'R' → c.isPut = false := fun h => by simp [Command.isPut, h]
        unfold request putTo
        split_ifs <;> simp_all [fillPoint, fillScan]
      rw [requests, List.filter_append, List.map_append, hhead, ih, List.filter_cons]
      split_ifs <;> simp

/-- The position in queue `q` of the next request behind the commands `before`. -/
def position (cfg : Config) (q : Nat) (before : List Command) : Nat :=
  (requests cfg q 0 before).length

variable {before rest : List Command} {init : Nat → Instance}

/-- The row in front of `position before` holds the requests of `before`. -/
theorem view_before (hq : q < cfg.queueNum) {i : Nat} (hi : i < position cfg q before) :
    (pipeline cfg (before ++ rest) init).view q i = (requests cfg q 0 before).getD i .blank := by
  have hcontent : (pipeline cfg (before ++ rest) init).content q =
      requests cfg q 0 before ++ (requests cfg q before.length rest ++ [fillEnd .blank]) := by
    rw [content_eq hq, requests_append, Nat.zero_add, List.append_assoc]
  rw [Pipeline.view, hcontent]
  exact List.getD_append _ _ _ _ hi

/-- The request of a command stands behind the requests of the commands before it. -/
theorem view_position (hq : q < cfg.queueNum) {c : Command} {r : AsyncRequest}
    (hrequest : request cfg q before.length c = some r) :
    (pipeline cfg (before ++ c :: rest) init).view q (position cfg q before) = r := by
  have hcontent : (pipeline cfg (before ++ c :: rest) init).content q =
      requests cfg q 0 before ++
        (r :: requests cfg q (before.length + 1) rest ++ [fillEnd .blank]) := by
    rw [content_eq hq, requests_append, Nat.zero_add, requests, hrequest, List.append_assoc]
    rfl
  rw [Pipeline.view, hcontent, position, List.getD_append_right _ _ _ _ (Nat.le_refl _),
    Nat.sub_self]
  rfl

/-- The writes in front of `position before` are those of `before`, in trace order. -/
theorem records_before (hq : q < cfg.queueNum) :
    let slots := (pipeline cfg (before ++ rest) init).view q
    (positions (isWrite slots) (position cfg q before)).map (record (cfg.params (init q)) slots) =
      (before.filter (putTo cfg q)).map fun c =>
        (generateKeyFromInt cfg.keySize c.key, cfg.value) := by
  intro slots
  have hview : ∀ i < position cfg q before, slots i = (requests cfg q 0 before).getD i .blank :=
    fun i hi => view_before hq hi
  have hpositions : positions (isWrite slots) (position cfg q before) =
      positions (fun i => ((requests cfg q 0 before).getD i .blank).write)
        (requests cfg q 0 before).length :=
    List.filter_congr fun i hi => by rw [isWrite, hview i (List.mem_range.mp hi)]
  rw [hpositions, ← requests_writes
    (fun key => (generateKeyFromInt cfg.keySize key, cfg.value)) 0, ← map_positions _ .blank]
  refine List.map_congr_left fun i hi => ?_
  rw [record, hview i (mem_positions.mp hi).1]
  rfl

/-- An update or insert of `before` that goes to queue `q` has a write request in front of
`position before`. -/
theorem write_of_command (rest : List Command) (init : Nat → Instance) (hq : q < cfg.queueNum)
    {c : Command} (hc : c ∈ before.filter (putTo cfg q)) :
    let slots := (pipeline cfg (before ++ rest) init).view q
    ∃ i < position cfg q before, isWrite slots i = true ∧
      (record (cfg.params (init q)) slots i).1 = generateKeyFromInt cfg.keySize c.key := by
  intro slots
  have hmem := List.mem_map_of_mem (f := fun c : Command =>
    (generateKeyFromInt cfg.keySize c.key, cfg.value)) hc
  rw [← @records_before cfg q before rest init hq] at hmem
  obtain ⟨i, hi, hrecord⟩ := List.mem_map.mp hmem
  obtain ⟨hlt, hwrite⟩ := mem_positions.mp hi
  exact ⟨i, hlt, hwrite, congrArg Prod.fst hrecord⟩

/-- A write request in front of `position before` comes from an update or insert of `before`. -/
theorem command_of_write (hq : q < cfg.queueNum) {i : Nat} (hi : i < position cfg q before)
    (hwrite : isWrite ((pipeline cfg (before ++ rest) init).view q) i = true) :
    ∃ c ∈ before.filter (putTo cfg q), generateKeyFromInt cfg.keySize c.key =
      (record (cfg.params (init q)) ((pipeline cfg (before ++ rest) init).view q) i).1 := by
  have hmem := List.mem_map_of_mem (f := record (cfg.params (init q))
    ((pipeline cfg (before ++ rest) init).view q)) (mem_positions.mpr ⟨hi, hwrite⟩)
  rw [records_before hq] at hmem
  obtain ⟨c, hc, hrecord⟩ := List.mem_map.mp hmem
  exact ⟨c, hc, congrArg Prod.fst hrecord⟩

variable {trace : List Command}

/-- A worker that has seen no end marker has not passed the requests of the trace. -/
theorem le_position (hq : q < cfg.queueNum) {n : Nat}
    (hreal : ∀ i < n, ((pipeline cfg trace init).view q i).seq ≠ -1) :
    n ≤ position cfg q trace := by
  simp only [Pipeline.view, content_eq hq] at hreal
  exact le_length_of_unmarked (fun r : AsyncRequest => r.seq = -1) rfl hreal

/-- A worker that stands on an end marker has taken exactly the requests of the trace. -/
theorem eq_position (hq : q < cfg.queueNum) {n : Nat}
    (hreal : ∀ i < n, ((pipeline cfg trace init).view q i).seq ≠ -1)
    (hmarker : ((pipeline cfg trace init).view q n).seq = -1) : n = position cfg q trace := by
  simp only [Pipeline.view, content_eq hq] at hreal hmarker
  exact eq_length_of_marked (fun r : AsyncRequest => r.seq = -1) (requests_real 0 trace) rfl hreal
    hmarker

end Placement

/-- Two queues and batches of 32, with rows of four slots. -/
def smallConfig : Config where
  queueNum := 2
  batchSize := 32
  keySize := 28
  valueSize := 100
  totalNum := 4
  expandQueueSize := 2
  queueNum_pos := Nat.two_pos

/-- A poll that observes `tail`; the calls of the step, if any, succeed. -/
def Choice.sees (tail : Nat) : Choice :=
  ⟨tail, .ok, fun _ => false⟩

/-- The steps in which the workers that observe these tails take the next requests of their
queues. -/
def taking (polls : List (Nat × Nat)) : List (Action Choice) :=
  polls.flatMap fun (q, tail) => List.replicate 3 (.work q (.sees tail))

end P2KVS.Ycsb
