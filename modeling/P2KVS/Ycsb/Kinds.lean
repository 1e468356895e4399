import P2KVS.Ycsb.Dispatch

/-!
# How the requests of `ycsb.cpp` are executed

A slot does not name the kind of its request: the worker takes it for a write, a point query or a
range scan according to `write` and `scan_size`. `executions` lists how the calls of a worker
execute the request at one position, `executed` how a worker executes the command with one number.
`executed_eq` says that a worker that has exited has executed each command once, as the kind of
request that the dispatcher has stored for it, if it has stored one.
-/

namespace P2KVS.Ycsb

open Channel History Transition

/-- What a worker takes a request for. -/
inductive Kind where
  | write
  | point
  | scan (size : Int)
  deriving DecidableEq, Repr

/-- The classification of `worker_thread`. -/
def AsyncRequest.kind (r : AsyncRequest) : Kind :=
  if r.write then .write else if r.scanSize = -1 then .point else .scan r.scanSize

/-- How a call executes the request at `pos`, once for each time it carries it. -/
def executes (pos : Nat) : Call → List Kind
  | .write reqs _ _ => (reqs.filter (· = pos)).map fun _ => .write
  | .multiGet reqs _ _ => (reqs.filter (· = pos)).map fun _ => .point
  | .newIterator req _ size => if req = pos then [.scan size] else []

/-- How the calls execute the request at `pos`. -/
def executions (calls : List Call) (pos : Nat) : List Kind :=
  calls.flatMap (executes pos)

/-- How the pending batches are going to execute the request at `pos`. -/
def pendingKinds (v : Locals) (pos : Nat) : List Kind :=
  executes pos (.write v.batchReqs v.batch .ok) ++ executes pos (.multiGet v.reads [] [])

/-- Each request that has been taken is executed once, or going to be, as its kind. -/
def Tracked (slots : Nat → AsyncRequest) (v : Locals) : Prop :=
  ∀ pos, (executions v.calls pos ++ pendingKinds v pos).Perm
    (if pos < v.seq then [(slots pos).kind] else [])

section Worker

variable {p : Params} {slots : Nat → AsyncRequest} {v u : Locals}

/-- The last call executes last. -/
theorem executions_append_singleton (calls : List Call) (call : Call) (pos : Nat) :
    executions (calls ++ [call]) pos = executions calls pos ++ executes pos call := by
  simp [executions]

/-- Taking the request at `seq` adds one execution, of that request. -/
theorem Tracked.succ (h : Tracked slots v) (hseq : u.seq = v.seq + 1)
    (hadd : ∀ pos, (executions u.calls pos ++ pendingKinds u pos).Perm
      ((executions v.calls pos ++ pendingKinds v pos) ++
        if v.seq = pos then [(slots v.seq).kind] else [])) : Tracked slots u := by
  intro pos
  refine ((hadd pos).trans ((h pos).append_right _)).trans (List.Perm.of_eq ?_)
  rw [hseq]
  by_cases hpos : v.seq = pos
  · subst hpos
    simp
  · have hlt : pos < v.seq + 1 ↔ pos < v.seq := by omega
    simp only [if_neg hpos, hlt, List.append_nil]

/-- The kind of a request by the classification of its position. -/
theorem kind_of_isWrite {i : Nat} (h : isWrite slots i = true) : (slots i).kind = .write := by
  rw [isWrite] at h
  simp [AsyncRequest.kind, h]

/-- The kind of a point read. -/
theorem kind_of_isPoint {i : Nat} (h : isPoint slots i = true) : (slots i).kind = .point := by
  simp only [isPoint, Bool.and_eq_true, Bool.not_eq_true', beq_iff_eq] at h
  simp [AsyncRequest.kind, h]

/-- The kind of a range scan. -/
theorem kind_of_isScan {i : Nat} (h : isScan slots i = true) :
    (slots i).kind = .scan (slots i).scanSize := by
  simp only [isScan, Bool.and_eq_true, Bool.not_eq_true', bne_iff_ne] at h
  simp [AsyncRequest.kind, h]

/-- Queueing a request adds its execution. -/
theorem executes_concat (pos i : Nat) (reqs : List Nat) (batch batch' : WriteBatch)
    (keys : List Slice) (status : Status) (statuses : List Status) :
    executes pos (.write (reqs ++ [i]) batch status) =
        executes pos (.write reqs batch' status) ++ (if i = pos then [.write] else []) ∧
      executes pos (.multiGet (reqs ++ [i]) keys statuses) =
        executes pos (.multiGet reqs keys statuses) ++ (if i = pos then [.point] else []) := by
  by_cases hpos : i = pos <;> simp [executes, hpos]

/-- The order of the last two parts does not matter. -/
theorem append_swap {α : Type*} (a b c : List α) : (a ++ b ++ c).Perm (a ++ c ++ b) := by
  rw [List.append_assoc, List.append_assoc]
  exact List.perm_append_comm.append_left a

/-- Nothing has been executed at the start. -/
theorem tracked_start (p : Params) (slots : Nat → AsyncRequest) : Tracked slots (.start p) := by
  intro pos
  simp [Locals.start, executions, pendingKinds, executes]

/-- The batches lose no request and change no kind. -/
theorem tracked_stable (p : Params) (slots : Nat → AsyncRequest) :
    Stable p slots (fun _ => True) (fun _ => True) (Tracked slots) where
  writeOut := by
    intro v c report _ h _ pos
    refine List.Perm.trans (List.Perm.of_eq ?_) (h pos)
    simp [Locals.dbWrite, Locals.clearBatch, executions_append_singleton, pendingKinds, executes]
  readOut := by
    intro v c report _ h pos
    refine List.Perm.trans ?_ (h pos)
    let writes := executes pos (.write v.batchReqs v.batch .ok)
    let lookups := executes pos (.multiGet v.reads [] [])
    show (executions (v.calls ++ [_]) pos ++ (writes ++ [])).Perm
      (executions v.calls pos ++ (writes ++ lookups))
    rw [executions_append_singleton, List.append_nil, ← List.append_assoc]
    exact append_swap (executions v.calls pos) lookups writes
  put := by
    intro v _ h _ hwrite
    refine h.succ rfl fun pos => ?_
    let writes := executes pos (.write v.batchReqs v.batch .ok)
    let lookups := executes pos (.multiGet v.reads [] [])
    rw [kind_of_isWrite hwrite]
    show (executions v.calls pos ++ (executes pos (.write (v.batchReqs ++ [v.seq]) _ .ok) ++
      lookups)).Perm (executions v.calls pos ++ (writes ++ lookups) ++ _)
    rw [(executes_concat pos v.seq v.batchReqs _ v.batch [] .ok []).1,
      List.append_assoc _ _ (ite _ _ _)]
    exact (append_swap writes _ lookups).append_left _
  pushKey := by
    intro v _ h _ hpoint
    refine h.succ rfl fun pos => List.Perm.of_eq ?_
    let writes := executes pos (.write v.batchReqs v.batch .ok)
    rw [kind_of_isPoint hpoint]
    show executions v.calls pos ++ (writes ++ executes pos (.multiGet (v.reads ++ [v.seq]) [] [])) =
      executions v.calls pos ++ (writes ++ executes pos (.multiGet v.reads [] [])) ++ _
    rw [(executes_concat pos v.seq v.reads [] [] [] .ok []).2]
    simp only [List.append_assoc]
  scan := by
    intro v _ h _ hscan
    refine h.succ rfl fun pos => ?_
    rw [kind_of_isScan hscan]
    show (executions (v.calls ++ [_]) pos ++ pendingKinds v pos).Perm _
    rw [executions_append_singleton]
    exact append_swap (executions v.calls pos) _ (pendingKinds v pos)

/-- A worker that has exited has executed each of its requests once, as its kind. -/
theorem executions_exited {w : Worker} (h : Worker.Inv p slots (Tracked slots) w)
    (hexit : w.pc = .exited) {pos : Nat} (hpos : pos < w.vars.seq) :
    executions w.vars.calls pos = [(slots pos).kind] := by
  have hlaw := h.law pos
  rw [Worker.settled_calls, Worker.settled_seq, if_pos hpos, Worker.settled, if_pos hexit] at hlaw
  have hpending : pendingKinds w.vars.clearBatch.clearReads pos = [] := rfl
  rw [hpending, List.append_nil] at hlaw
  exact List.perm_singleton.mp hlaw

end Worker

section Dispatch

variable {cfg : Config} {q : Nat}

/-- A request carries the number of its command. -/
theorem seq_of_request {ops : Nat} {c : Command} {r : AsyncRequest}
    (h : request cfg q ops c = some r) : r.seq = ops := by
  unfold request at h
  split_ifs at h <;> cases h <;> rfl

/-- The requests of a trace are those of its commands, in the places of their numbers. -/
theorem mem_requests {ops : Nat} {cmds : List Command} {r : AsyncRequest} :
    r ∈ requests cfg q ops cmds ↔
      ∃ i c, cmds[i]? = some c ∧ request cfg q (ops + i) c = some r := by
  induction cmds generalizing ops with
  | nil => simp [requests]
  | cons c rest ih =>
      rw [requests, List.mem_append, Option.mem_toList, ih]
      constructor
      · rintro (hhead | ⟨i, c', hc', hr⟩)
        · exact ⟨0, c, rfl, hhead⟩
        · exact ⟨i + 1, c', hc', by rwa [Nat.add_assoc, Nat.add_comm 1] at hr⟩
      · rintro ⟨i, c', hc', hr⟩
        cases i with
        | zero =>
            cases hc'
            exact .inl hr
        | succ i => exact .inr ⟨i, c', hc', by rwa [Nat.add_assoc, Nat.add_comm 1]⟩

/-- The requests of a queue carry increasing numbers. -/
theorem requests_increasing (cfg : Config) (q ops : Nat) (cmds : List Command) :
    (requests cfg q ops cmds).Pairwise fun a b => a.seq < b.seq := by
  induction cmds generalizing ops with
  | nil => exact List.Pairwise.nil
  | cons c rest ih =>
      refine List.pairwise_append.mpr ⟨?_, ih (ops + 1), ?_⟩
      · cases request cfg q ops c with
        | none => exact List.Pairwise.nil
        | some r => exact List.pairwise_singleton _ _
      · intro a ha b hb
        obtain ⟨i, c', _, hr⟩ := mem_requests.mp hb
        rw [seq_of_request (Option.mem_toList.mp ha), seq_of_request hr]
        omega

variable {cmds : List Command} {i k : Nat} {c : Command}

/-- A request that carries the number of a command is the one of that command. -/
theorem request_of_number (hc : cmds[i]? = some c) (hk : k < (requests cfg q 0 cmds).length)
    (hnumber : (requests cfg q 0 cmds)[k].seq = i) :
    request cfg q i c = some (requests cfg q 0 cmds)[k] := by
  obtain ⟨j, other, hother, hr⟩ := mem_requests.mp (List.getElem_mem hk)
  have hji : j = i := by
    rw [seq_of_request hr, Nat.zero_add] at hnumber
    exact Int.ofNat_inj.mp hnumber
  subst hji
  rw [hother] at hc
  cases hc
  rwa [Nat.zero_add] at hr

/-- Only one request of a queue carries a number. -/
theorem number_injective {j : Nat} (hj : j < (requests cfg q 0 cmds).length)
    (hk : k < (requests cfg q 0 cmds).length)
    (hsame : (requests cfg q 0 cmds)[j].seq = (requests cfg q 0 cmds)[k].seq) : j = k := by
  have hincreasing := List.pairwise_iff_getElem.mp (requests_increasing cfg q 0 cmds)
  rcases Nat.lt_trichotomy j k with hlt | heq | hlt
  · have hless := hincreasing j k hj hk hlt
    omega
  · exact heq
  · have hless := hincreasing k j hk hj hlt
    omega

end Dispatch

/-- How worker `q` executes the command with number `i`: the executions of its requests that carry
this number. -/
def executed (p : Pipeline AsyncRequest Worker Choice) (s : State AsyncRequest Worker) (q i : Nat) :
    List Kind :=
  (positions (fun pos => (p.view q pos).seq = i) (s.workers q).vars.seq).flatMap
    (executions (s.workers q).vars.calls)

/-- A worker that has exited has executed each command once, as the kind of the request that the
dispatcher has stored for it, and not at all if there is none. -/
theorem executed_eq {cfg : Config} {cmds : List Command} {init : Nat → Instance}
    (hfit : (pipeline cfg cmds init).Fits) {s : State AsyncRequest Worker}
    (h : (pipeline cfg cmds init).system.Reachable (fun _ _ => True) s) {q : Nat}
    (hq : q < cfg.queueNum) (hexit : (s.workers q).pc = .exited) {i : Nat} {c : Command}
    (hc : cmds[i]? = some c) :
    executed (pipeline cfg cmds init) s q i =
      ((request cfg q i c).map AsyncRequest.kind).toList := by
  let row := requests cfg q 0 cmds
  have hinv : Worker.Inv (cfg.params (init q)) ((pipeline cfg cmds init).view q)
      (Tracked ((pipeline cfg cmds init).view q)) (s.workers q) :=
    Worker.inv_reachable (tracked_stable _ _) ((pipeline cfg cmds init).content q).length
      (tracked_start _ _)
      ((Pipeline.worker_reachable_free hfit h hq).mono fun _ _ _ => ⟨trivial, fun _ => trivial⟩)
  have hseq : (s.workers q).vars.seq = row.length :=
    eq_position hq hinv.real (hinv.marker hexit)
  have hview : ∀ {k : Nat} (hk : k < row.length),
      (pipeline cfg cmds init).view q k = row[k] := by
    intro k hk
    rw [Pipeline.view, content_eq hq, List.getD_append _ _ _ _ hk, List.getD_eq_getElem _ _ hk]
  rw [executed, hseq]
  cases hr : request cfg q i c with
  | none =>
      have hnone : positions (fun pos => ((pipeline cfg cmds init).view q pos).seq = i)
          row.length = [] := by
        refine List.eq_nil_iff_forall_not_mem.mpr fun k hk => ?_
        obtain ⟨hlt, hnumber⟩ := mem_positions.mp hk
        rw [decide_eq_true_eq, hview hlt] at hnumber
        rw [request_of_number hc hlt hnumber] at hr
        cases hr
      rw [hnone]
      rfl
  | some r =>
      have hmem : r ∈ row := mem_requests.mpr ⟨i, c, hc, by rwa [Nat.zero_add]⟩
      obtain ⟨k, hk, hat⟩ := List.mem_iff_getElem.mp hmem
      have hnumber : row[k].seq = i := by rw [hat, seq_of_request hr]
      have hone : positions (fun pos => ((pipeline cfg cmds init).view q pos).seq = i)
          row.length = [k] := by
        refine positions_eq_singleton hk (by rw [decide_eq_true_eq, hview hk, hnumber]) ?_
        intro j hj hsame
        rw [decide_eq_true_eq, hview hj] at hsame
        exact number_injective hj hk (hsame.trans hnumber.symm)
      rw [hone, List.flatMap_singleton, executions_exited hinv hexit (hseq ▸ hk), hview hk, hat]
      rfl

end P2KVS.Ycsb
