import P2KVS.WriteTest.EndToEnd

/-!
# Batches of `write_test.cpp` and the order of the queue

The worker decides where a batch ends from three conditions: the tail it has observed, `BATCH_SIZE`
and the end marker. `batching_refines_fifo` says that none of them loses, repeats or reorders a
request, for every list of keys the dispatcher enqueues, every interleaving and every outcome of the
writes. Slots the dispatcher has not filled look like the end marker; the worker never reads one,
because every slot it reads lies in front of the tail it has observed.
-/

namespace P2KVS

/-- The call as it is recorded when it succeeds. -/
def Call.succeed : Call → Call
  | .write reqs batch _ => .write reqs batch .ok
  | call => call

/-- The outcome of a call does not change the records it carries. -/
@[simp] theorem Call.records_succeed (call : Call) : call.succeed.records = call.records := by
  cases call <;> rfl

/-- The outcome of a call does not change the requests it carries. -/
@[simp] theorem Call.writeReqs_succeed (call : Call) :
    call.succeed.writeReqs = call.writeReqs := by
  cases call <;> rfl

namespace WriteTest

open Channel History Transition

namespace Worker

/-- The worker in the run in which every `db->Write` so far has succeeded. -/
def succeed (w : Worker) : Worker :=
  { w with calls := w.calls.map Call.succeed }

/-- Polling does not look at the calls. -/
theorem poll_succeed (tail t : Nat) (w : Worker) :
    w.succeed.poll tail t = (w.poll tail t).map succeed := by
  by_cases hseen : w.t ≤ t ∧ t ≤ tail
  · by_cases hbehind : t ≤ w.seq <;> simp [poll, succeed, hseen, hbehind]
  · simp [poll, succeed, hseen]

/-- Taking a request does not look at the calls. -/
theorem take_succeed (r : AsyncRequest) (w : Worker) : w.succeed.take r = (w.take r).succeed := by
  unfold take
  split_ifs <;> rfl

/-- A batch is written and forgotten whatever the outcome. -/
theorem flush_succeed (c : Choice) (w : Worker) :
    w.succeed.flush { c with writeStatus := .ok } = (w.flush c).succeed := by
  by_cases hsize : w.batchSize = 0
  · simp [flush, succeed, hsize]
  · simp [flush, succeed, Call.succeed, hsize]
    rfl

/-- No branch of the worker depends on the status of a `db->Write`. -/
theorem step_succeed (slots : Nat → AsyncRequest) (tail : Nat) (c : Choice) (w : Worker) :
    step slots tail { c with writeStatus := .ok } w.succeed =
      (step slots tail c w).map succeed := by
  unfold step
  rw [show w.succeed.pc = w.pc from rfl]
  cases w.pc with
  | loopHead => exact poll_succeed tail c.tail w
  | inner =>
      simp only [apply_ite (Option.map succeed), Option.map_some, ← take_succeed]
      rfl
  | write => exact congrArg some (flush_succeed c w)
  | exited => rfl

/-- What a worker has taken from its queue, whatever the outcome of its writes: the requests in
front of `seq`, which lies within the observed tail, in batches that are neither empty nor longer
than `BATCH_SIZE`. -/
structure Drained (slots : Nat → AsyncRequest) (w : Worker) : Prop where
  account : Inv slots w.succeed
  size : w.batchSize ≤ batchSizeLimit
  sizes : ∀ call ∈ w.calls, 1 ≤ call.records.length ∧ call.records.length ≤ batchSizeLimit
  observed : w.seq ≤ w.t
  marker : w.endflag = true → w.seq < w.t ∧ (slots w.seq).seq = -1
  ended : w.pc = .exited → w.endflag = true

section Steps

variable {slots : Nat → AsyncRequest} {w : Worker}

/-- A worker that has not started has taken nothing. -/
theorem drained_start (slots : Nat → AsyncRequest) : Drained slots start := by
  refine ⟨inv_start slots, ?_, ?_, ?_, ?_, ?_⟩ <;> simp [start]

/-- The open batch holds the records of the requests it carries. -/
theorem Drained.batch (h : Drained slots w) :
    w.batch = w.batchReqs.map fun i => record (slots i) :=
  h.account.batch

/-- While a batch is open its counter is its length. -/
theorem Drained.batchSize_eq (h : Drained slots w) (hpc : w.pc = .write) :
    w.batchSize = w.batch.length := by
  have hpoint := h.account.point
  rw [show w.succeed.pc = .write from hpc] at hpoint
  rw [h.batch, List.length_map]
  exact hpoint.1

/-- Outside of the exit path the worker has not met the end marker. -/
theorem Drained.endflag_false (h : Drained slots w) (hpc : w.pc = .loopHead ∨ w.pc = .inner) :
    w.endflag = false := by
  have hpoint := h.account.point
  rcases hpc with hpc | hpc
  · rw [show w.succeed.pc = .loopHead from hpc] at hpoint
    exact hpoint.2
  · rw [show w.succeed.pc = .inner from hpc] at hpoint
    exact hpoint.2

/-- Every step keeps the account, whatever the status of a `db->Write`. -/
theorem Drained.step (h : Drained slots w) {tail : Nat} {c : Choice} {w' : Worker}
    (hstep : Worker.step slots tail c w = some w') : Drained slots w' := by
  have haccount : Inv slots w'.succeed := by
    refine h.account.step rfl ((step_succeed slots tail c w).trans ?_)
    rw [hstep, Option.map_some]
  have hle := h.observed
  obtain ⟨hpc, hmono, _, rfl | rfl⟩ | ⟨hpc, hlt, hroom, rfl⟩ | ⟨hpc, rfl⟩ | ⟨hpc, rfl⟩ :=
    step_cases hstep
  · have hflag := h.endflag_false (.inl hpc)
    exact ⟨haccount, h.size, h.sizes, Nat.le_trans hle hmono, by simp [hflag], by simp [hpc]⟩
  · have hflag := h.endflag_false (.inl hpc)
    exact ⟨haccount, Nat.zero_le _, h.sizes, Nat.le_trans hle hmono, by simp [hflag], by simp⟩
  · unfold Worker.take at haccount ⊢
    split_ifs at haccount ⊢ with hseq
    · -- the marker lies in front of the observed tail
      exact ⟨haccount, h.size, h.sizes, hle, fun _ => ⟨hlt, hseq⟩, by simp⟩
    · have hflag := h.endflag_false (.inr hpc)
      refine ⟨haccount, ?_, h.sizes, ?_, by simp [hflag], by simp [hpc]⟩
      · show w.batchSize + 1 ≤ batchSizeLimit
        omega
      · show w.seq + 1 ≤ w.t
        omega
  · exact ⟨haccount, h.size, h.sizes, hle, h.marker, by simp⟩
  · refine ⟨haccount, h.size, ?_, hle, h.marker, ?_⟩
    · intro call hcall
      simp only [Worker.flush] at hcall
      split_ifs at hcall with hsize
      · rcases List.mem_append.mp hcall with hold | hnew
        · exact h.sizes call hold
        · obtain rfl := List.mem_singleton.mp hnew
          have hlength := h.batchSize_eq hpc
          have hbound := h.size
          show 1 ≤ w.batch.length ∧ w.batch.length ≤ batchSizeLimit
          omega
      · exact h.sizes call hcall
    · intro hexit
      simpa [Worker.flush] using hexit

/-- The batches written so far and the open one hold the records of the requests in front of
`seq`, in queue order. -/
theorem Drained.records (h : Drained slots w) :
    written w.calls ++ w.batch = (List.range w.seq).map fun i => record (slots i) := by
  have hcalls : ∀ call ∈ w.calls, call.records = call.writeReqs.map fun i => record (slots i) := by
    intro call hcall
    simpa using h.account.records call.succeed (List.mem_map_of_mem hcall)
  have htaken : (w.calls.map Call.succeed).flatMap Call.writeReqs ++ w.batchReqs =
      List.range w.seq := h.account.taken
  rw [← htaken, List.map_append, ← h.batch, List.map_flatMap, List.flatMap_map, written]
  refine congrArg (· ++ w.batch) (List.flatMap_congr fun call hcall => ?_)
  rw [hcalls call hcall, Call.writeReqs_succeed]

/-- Each position in front of `seq` is carried by one call or by the open batch, once. -/
theorem Drained.taken (h : Drained slots w) :
    w.calls.flatMap Call.writeReqs ++ w.batchReqs = List.range w.seq := by
  have htaken : (w.calls.map Call.succeed).flatMap Call.writeReqs ++ w.batchReqs =
      List.range w.seq := h.account.taken
  rw [List.flatMap_map] at htaken
  simpa using htaken

end Steps

end Worker

/-- The dispatch loop over an arbitrary sequence of keys, in place of those of one `KeyGenerator`
mode. -/
def enqueues (cfg : Config) (keys : List UInt64) : List (Enqueue AsyncRequest) :=
  keys.mapIdx fun i key => ⟨key.toNat % cfg.queueNum, fillRequest i key⟩

/-- Every worker starts in step with its empty queue. -/
theorem start_synced : ∀ _ : Nat, Worker.consumer.Synced 0 Worker.start :=
  fun _ => Nat.le_refl _

/-- The program `write_test.cpp` over an arbitrary sequence of keys. -/
def feed (cfg : Config) (keys : List UInt64) : Pipeline AsyncRequest Worker Choice where
  queueNum := cfg.queueNum
  row := cfg.rowLength
  blank := .blank
  program := enqueues cfg keys ++ broadcast cfg.queueNum fillEnd
  consumer := fun _ => Worker.consumer
  start := fun _ => .start
  routed := by
    intro e he
    rcases List.mem_append.mp he with he | he
    · obtain ⟨i, hi, rfl⟩ := List.mem_mapIdx.mp he
      exact Nat.mod_lt _ cfg.queueNum_pos
    · exact broadcast_routed e he
  start_synced := start_synced

/-- In `SEQUENTIAL` mode the sequence is `0, 1, …`. -/
theorem pipeline_eq_feed (cfg : Config) :
    pipeline cfg = feed cfg ((List.range cfg.totalNum).map UInt64.ofNat) := by
  have hissue : issueAll cfg cfg.totalNum 0 0 =
      enqueues cfg ((List.range cfg.totalNum).map UInt64.ofNat) := by
    have heq := issueAll_eq cfg cfg.totalNum 0
    rw [show UInt64.ofNat 0 = 0 from rfl] at heq
    rw [heq, ← List.range_eq_range', enqueues]
    refine List.ext_getElem (by simp) fun i hleft hright => ?_
    simp [issue]
  simp only [pipeline, feed, hissue]

/-- The requests that are enqueued into queue `q`, in enqueue order, without the end marker. -/
def requests (cfg : Config) (keys : List UInt64) (q : Nat) : List AsyncRequest :=
  ((enqueues cfg keys).filter fun e => e.queue = q).map fun e => e.fill .blank

section Feed

variable {cfg : Config} {keys : List UInt64} {q : Nat}

/-- Row `q` holds its requests and the end marker. -/
theorem content_feed (hq : q < cfg.queueNum) :
    (feed cfg keys).content q = requests cfg keys q ++ [fillEnd .blank] :=
  Pipeline.content_of_broadcast rfl hq

/-- No request looks like the end marker. -/
theorem seq_of_mem_requests {r : AsyncRequest} (hr : r ∈ requests cfg keys q) : ¬ r.seq = -1 := by
  obtain ⟨e, he, rfl⟩ := List.mem_map.mp hr
  obtain ⟨i, hi, rfl⟩ := List.mem_mapIdx.mp (List.mem_filter.mp he).1
  simp only [fillRequest]
  omega

/-- Row `q`, slot by slot. -/
theorem view_feed (hq : q < cfg.queueNum) (i : Nat) :
    (feed cfg keys).view q i = (requests cfg keys q ++ [fillEnd .blank]).getD i .blank := by
  rw [Pipeline.view, content_feed hq]
  rfl

/-- A queue receives a request for every key of its residue class. -/
theorem length_requests (cfg : Config) (keys : List UInt64) (q : Nat) :
    (requests cfg keys q).length = keys.countP fun key => key.toNat % cfg.queueNum = q := by
  have hqueues : (enqueues cfg keys).map Enqueue.queue =
      keys.map fun key => key.toNat % cfg.queueNum := by
    refine List.ext_getElem (by simp [enqueues]) fun i hleft hright => ?_
    simp [enqueues]
  rw [requests, List.length_map, ← List.countP_eq_length_filter]
  calc (enqueues cfg keys).countP (fun e => e.queue = q)
      = ((enqueues cfg keys).map Enqueue.queue).countP (fun r => r = q) := by
        rw [List.countP_map]
        rfl
    _ = keys.countP fun key => key.toNat % cfg.queueNum = q := by
        rw [hqueues, List.countP_map]
        rfl

variable {w : Worker}

/-- A worker that runs alone accounts for what it has taken. -/
theorem drained_isolated (h : ((feed cfg keys).isolated q).Reachable (fun _ _ => True) w) :
    Worker.Drained ((feed cfg keys).view q) w :=
  h.invariant (I := Worker.Drained ((feed cfg keys).view q)) (Worker.drained_start _)
    fun _ hold _ hstep => hold.step hstep

/-- No slot that the worker has passed holds the end marker. -/
theorem unmarked_of_drained (hq : q < cfg.queueNum)
    (h : Worker.Drained ((feed cfg keys).view q) w) :
    ∀ i < w.seq, ¬ ((requests cfg keys q ++ [fillEnd .blank]).getD i .blank).seq = -1 := by
  intro i hi
  rw [← view_feed hq i]
  exact h.account.real i hi

/-- Once the end flag is set the worker has taken exactly its requests. -/
theorem seq_of_endflag (hq : q < cfg.queueNum)
    (h : Worker.Drained ((feed cfg keys).view q) w) (hflag : w.endflag = true) :
    w.seq = (requests cfg keys q).length := by
  have hmark := (h.marker hflag).2
  rw [view_feed hq] at hmark
  exact eq_length_of_marked (fun r : AsyncRequest => r.seq = -1)
    (fun _ hr => seq_of_mem_requests hr) rfl (unmarked_of_drained hq h) hmark

/-- A worker that runs alone exits when it has taken the requests of its residue class. -/
theorem seq_of_exited (hq : q < cfg.queueNum)
    (h : ((feed cfg keys).isolated q).Reachable (fun _ _ => True) w) (hexit : w.pc = .exited) :
    w.seq = keys.countP fun key => key.toNat % cfg.queueNum = q := by
  have hdrained := drained_isolated h
  rw [seq_of_endflag hq hdrained (hdrained.ended hexit), length_requests]

end Feed

/-- Worker 1 writes its first request before the second is enqueued, and the write fails; the
second batch is cut short by the end marker. -/
def mixedRun : List (Action Choice) :=
  List.replicate 2 .dispatch ++ List.replicate 4 (.work 1 ⟨1, .ioError⟩) ++
    List.replicate 10 .dispatch ++ List.replicate 4 (.work 1 ⟨3, .ok⟩)

end WriteTest

end P2KVS
