import P2KVS.Ycsb.Coverage
import P2KVS.Ycsb.Dispatch
import P2KVS.Ycsb.Idle

/-!
# The scan barrier of `ycsb.cpp`

Without `MULTISCAN` the dispatcher of `ycsb.cpp` executes a scan itself: it waits until no worker is
`busy`, opens an iterator on every instance and merges them. `busy[q]` is a hint that only worker
`q` writes, after it has noticed work; it is false before the worker has run, and it stays false
while a request waits for a sleeping worker. So the wait can end with requests in the queues
(`scan_barrier_passed`). `scan_barrier` gives the condition under which it does not: whenever the
dispatcher reads a flag as false, the worker is in its idle branch and has seen the last enqueue.
-/

namespace P2KVS.Ycsb.SingleScan

open Channel History Transition

/-- The program points of `main`: the head of the loop over the trace, the increment behind the
stores of a request, the wait on `busy[j]`, the creation of the `j`-th iterator, the scan, the end
marker of queue `j` and its increment, and the end. -/
inductive Point where
  | fetch
  | publish (c : Command)
  | await (c : Command) (j : Nat)
  | newIterator (c : Command) (j : Nat)
  | scan (c : Command)
  | mark (j : Nat)
  | publishMark (j : Nat)
  | finished
  deriving DecidableEq, Repr

/-- The shared state, the dispatcher and the workers. `done` is a history variable: the commands
that the dispatcher has dealt with. -/
structure State where
  slots : Nat → Nat → AsyncRequest
  tail : Nat → Nat
  workers : Nat → Worker
  point : Point
  done : List Command
  rest : List Command
  ops : Nat
  iters : Nat → Instance

section Program

variable (cfg : Config) (init : Nat → Instance)

/-- The contents of instance `q`. -/
def db (s : State) (q : Nat) : Instance :=
  (s.workers q).vars.db (cfg.params (init q))

/-- The stores to the slot at the tail of queue `q`. A store behind the row is undefined
behaviour. -/
def fillSlot (s : State) (q : Nat) (fill : AsyncRequest → AsyncRequest) (next : Point) :
    Option State :=
  if s.tail q < cfg.rowLength then
    some { s with
      slots := Function.update s.slots q
        (Function.update (s.slots q) (s.tail q) (fill (s.slots q (s.tail q))))
      point := next }
  else none

/-- `tail[q]++`. -/
def publishSlot (s : State) (q : Nat) : State :=
  { s with tail := Function.update s.tail q (s.tail q + 1) }

/-- The end of the loop body, `ops++`, behind the command `c`. -/
def finish (s : State) (c : Command) : State :=
  { s with point := .fetch, done := s.done ++ [c], ops := s.ops + 1 }

/-- `c = &cmds[i]; i++;` and the branch of the command. -/
def fetch (s : State) : Option State :=
  match s.rest with
  | [] => some { s with point := .mark 0 }
  | c :: rest =>
      let s := { s with rest := rest }
      if c.cmd = 'R' then
        fillSlot cfg s (cfg.queueOf c.key) (fillPoint s.ops c.key false) (.publish c)
      else if c.cmd = 'U' ∨ c.cmd = 'I' then
        fillSlot cfg s (cfg.queueOf c.key) (fillPoint s.ops c.key true) (.publish c)
      else if c.cmd = 'D' then some (finish s c)
      else if c.cmd = 'S' then some { s with point := .await c 0 }
      else some (finish s c)

/-- The loop over the merging iterator. Each iteration counts as an operation. -/
def scan (s : State) (c : Command) : State :=
  let entries := mergeEntries (fun j : Fin cfg.queueNum => s.iters j)
    (generateKeyFromInt cfg.keySize c.key) c.scanSize.toInt
  finish { s with ops := s.ops + entries.length } c

/-- One step of the dispatcher. -/
def dispatch (s : State) : Option State :=
  match s.point with
  | .fetch => fetch cfg s
  | .publish c => some (finish (publishSlot s (cfg.queueOf c.key)) c)
  | .await c j =>
      if j < cfg.queueNum then
        some (if (s.workers j).busy then s else { s with point := .await c (j + 1) })
      else some { s with point := .newIterator c 0 }
  | .newIterator c j =>
      if j < cfg.queueNum then
        some { s with
          iters := Function.update s.iters j (db cfg init s j)
          point := .newIterator c (j + 1) }
      else some { s with point := .scan c }
  | .scan c => some (scan cfg s c)
  | .mark j =>
      if j < cfg.queueNum then fillSlot cfg s j fillEnd (.publishMark j)
      else some { s with point := .finished }
  | .publishMark j => some { publishSlot s j with point := .mark (j + 1) }
  | .finished => none

/-- One step of the program. -/
def step (s : State) : Action Choice → Option State
  | .dispatch => dispatch cfg init s
  | .work q c =>
      if q < cfg.queueNum then
        (Worker.step (cfg.params (init q)) (s.slots q) (s.tail q) c (s.workers q)).map fun w =>
          { s with workers := Function.update s.workers q w }
      else none

/-- The program `ycsb.cpp` without `MULTISCAN` on a trace. -/
def system (trace : List Command) : System State (Action Choice) where
  init := {
    slots := fun _ _ => .blank
    tail := fun _ => 0
    workers := fun q => Worker.start (cfg.params (init q))
    point := .fetch
    done := []
    rest := trace
    ops := 0
    iters := fun _ => .empty }
  step := step cfg init

end Program

/-- Worker `j` is idle and up to date: nothing was ever enqueued into its queue, or it is in its
idle branch and the tail it has polled last is the current one. -/
def UpToDate (s : State) (j : Nat) : Prop :=
  s.tail j = 0 ∨
    ((s.workers j).pc = .idle ∨ (s.workers j).pc = .wait) ∧ (s.workers j).seen = s.tail j

/-- Whenever the dispatcher reads `busy[j]` as false, worker `j` is idle and up to date. -/
def HintHolds (s : State) : Action Choice → Prop
  | .work _ _ => True
  | .dispatch =>
      match s.point with
      | .await _ j => (s.workers j).busy = false → UpToDate s j
      | _ => True

/-- The condition is about the state before the step, and can be computed. -/
instance decidableHintHolds (s : State) : (a : Action Choice) → Decidable (HintHolds s a)
  | .work _ _ => inferInstanceAs (Decidable True)
  | .dispatch => by
      unfold HintHolds UpToDate
      cases s.point <;> infer_instance

section Rows

variable {cfg : Config} {init : Nat → Instance} {s t : State}

/-- The step from `s` to `t` leaves the workers and the published slots alone and takes no tail
back. -/
structure Agree (s t : State) : Prop where
  workers : t.workers = s.workers
  tail : ∀ q, s.tail q ≤ t.tail q
  slots : ∀ q, ∀ i < s.tail q, s.slots q i = t.slots q i

/-- A step that touches neither rows nor workers. -/
theorem agree_of_eq (hworkers : t.workers = s.workers) (htail : t.tail = s.tail)
    (hslots : t.slots = s.slots) : Agree s t :=
  ⟨hworkers, fun q => (congrFun htail q).ge, fun q i _ => by rw [hslots]⟩

/-- What the stores of a request do. -/
theorem fillSlot_eq_some {q : Nat} {fill : AsyncRequest → AsyncRequest} {next : Point}
    (h : fillSlot cfg s q fill next = some t) :
    t = { s with
      slots := Function.update s.slots q
        (Function.update (s.slots q) (s.tail q) (fill (s.slots q (s.tail q))))
      point := next } := by
  unfold fillSlot at h
  split_ifs at h
  exact (Option.some.inj h).symm

/-- The stores of a request go behind the published slots. -/
theorem agree_fillSlot {q : Nat} {fill : AsyncRequest → AsyncRequest} {next : Point}
    (h : fillSlot cfg s q fill next = some t) : Agree s t := by
  obtain rfl := fillSlot_eq_some h
  refine ⟨rfl, fun _ => Nat.le_refl _, fun r i hi => ?_⟩
  by_cases hr : r = q
  · subst hr
    simp [Function.update_of_ne (Nat.ne_of_lt hi)]
  · simp [Function.update_of_ne hr]

/-- An increment takes no tail back. -/
theorem agree_publishSlot (s : State) (q : Nat) : Agree s (publishSlot s q) := by
  refine ⟨rfl, fun r => ?_, fun _ _ _ => rfl⟩
  by_cases hr : r = q
  · subst hr
    simp [publishSlot]
  · simp [publishSlot, Function.update_of_ne hr]

/-- What the dispatcher does with the next command: it makes the stores of a point request, waits in
front of a scan, or passes over the command. -/
theorem fetch_cases (h : fetch cfg s = some t) :
    (s.rest = [] ∧ t = { s with point := .mark 0 }) ∨
    ∃ c rest, s.rest = c :: rest ∧
      (((c.cmd = 'R' ∨ c.isPut) ∧ fillSlot cfg { s with rest := rest } (cfg.queueOf c.key)
          (fillPoint s.ops c.key c.isPut) (.publish c) = some t) ∨
        (c.cmd = 'S' ∧ t = { s with rest := rest, point := .await c 0 }) ∨
        (¬ (c.cmd = 'R' ∨ c.isPut) ∧ t = finish { s with rest := rest } c)) := by
  unfold fetch at h
  cases hrest : s.rest with
  | nil =>
      simp only [hrest, Option.some.injEq] at h
      exact .inl ⟨rfl, h.symm⟩
  | cons c rest =>
      refine .inr ⟨c, rest, rfl, ?_⟩
      simp only [hrest] at h
      have hput : c.isPut = true ↔ c.cmd = 'U' ∨ c.cmd = 'I' := by simp [Command.isPut]
      split_ifs at h with hread hwrite hdelete hscan
      · refine .inl ⟨.inl hread, ?_⟩
        have hnot : c.isPut = false := by simp [Command.isPut, hread]
        rw [hnot]
        exact h
      · refine .inl ⟨.inr (hput.mpr hwrite), ?_⟩
        rw [hput.mpr hwrite]
        exact h
      · exact .inr (.inr ⟨not_or.mpr ⟨hread, mt hput.mp hwrite⟩, (Option.some.inj h).symm⟩)
      · exact .inr (.inl ⟨hscan, (Option.some.inj h).symm⟩)
      · exact .inr (.inr ⟨not_or.mpr ⟨hread, mt hput.mp hwrite⟩, (Option.some.inj h).symm⟩)

/-- The dispatcher leaves the workers and the published slots alone. -/
theorem agree_dispatch (h : dispatch cfg init s = some t) : Agree s t := by
  unfold dispatch at h
  cases hpoint : s.point with
  | fetch =>
      rw [hpoint] at h
      obtain ⟨_, rfl⟩ | ⟨c, rest, _, ⟨_, hfill⟩ | ⟨_, rfl⟩ | ⟨_, rfl⟩⟩ := fetch_cases h
      · exact agree_of_eq rfl rfl rfl
      · exact ⟨(agree_fillSlot hfill).workers, (agree_fillSlot hfill).tail,
          (agree_fillSlot hfill).slots⟩
      · exact agree_of_eq rfl rfl rfl
      · exact agree_of_eq rfl rfl rfl
  | publish c =>
      rw [hpoint] at h
      cases h
      have hagree := agree_publishSlot s (cfg.queueOf c.key)
      exact ⟨hagree.workers, hagree.tail, hagree.slots⟩
  | await c j =>
      simp only [hpoint] at h
      split_ifs at h <;> cases h <;> exact agree_of_eq rfl rfl rfl
  | newIterator c j =>
      simp only [hpoint] at h
      split_ifs at h <;> cases h <;> exact agree_of_eq rfl rfl rfl
  | scan c =>
      rw [hpoint] at h
      cases h
      exact agree_of_eq rfl rfl rfl
  | mark j =>
      simp only [hpoint] at h
      split_ifs at h
      · exact agree_fillSlot h
      · cases h
        exact agree_of_eq rfl rfl rfl
  | publishMark j =>
      rw [hpoint] at h
      cases h
      have hagree := agree_publishSlot s j
      exact ⟨hagree.workers, hagree.tail, hagree.slots⟩
  | finished =>
      rw [hpoint] at h
      cases h

/-- What a step of worker `r` can do. -/
theorem work_cases {r : Nat} {c : Choice} (h : step cfg init s (.work r c) = some t) :
    r < cfg.queueNum ∧ ∃ w, Worker.step (cfg.params (init r)) (s.slots r) (s.tail r) c
        (s.workers r) = some w ∧
      t = { s with workers := Function.update s.workers r w } := by
  simp only [step] at h
  split_ifs at h with hr
  obtain ⟨w, hw, rfl⟩ := Option.map_eq_some_iff.mp h
  exact ⟨hr, w, hw, rfl⟩

/-- Each worker has reached its state alone on what is published of its row. -/
theorem worker_reachable {trace : List Command} {allowed : State → Action Choice → Prop}
    (h : (system cfg init trace).Reachable allowed s) (q : Nat) :
    (Worker.alone (cfg.params (init q)) (s.slots q) (s.tail q)).Reachable (fun _ _ => True)
      (s.workers q) := by
  refine h.invariant (I := fun s => ∀ q, (Worker.alone (cfg.params (init q)) (s.slots q)
    (s.tail q)).Reachable (fun _ _ => True) (s.workers q)) (fun _ => .init) ?_ q
  intro s a t _ hold _ hstep q
  cases a with
  | dispatch =>
      have hdispatch : dispatch cfg init s = some t := hstep
      have hagree := agree_dispatch hdispatch
      have hstart : (Worker.consumer (cfg.params (init q))).Synced (s.tail q)
          (Worker.start (cfg.params (init q))) := ⟨Nat.zero_le _, by simp [Worker.start]⟩
      rw [hagree.workers]
      exact Consumer.reachable_later hstart (hagree.slots q) (hagree.tail q) (hold q)
  | work r c =>
      obtain ⟨_, w, hw, rfl⟩ := work_cases hstep
      by_cases hq : q = r
      · subst hq
        simp only [Function.update_self]
        exact .step (hold q) trivial hw
      · simpa only [Function.update_of_ne hq] using hold q

/-- What is known of worker `q` in every reachable state. -/
theorem running {trace : List Command} {allowed : State → Action Choice → Prop}
    (h : (system cfg init trace).Reachable allowed s) (q : Nat) :
    Worker.Running (cfg.params (init q)) (s.slots q) (s.tail q) (s.workers q) :=
  Worker.running_of_reachable (worker_reachable h q)

end Rows

/-- The command that the dispatcher is working on. -/
def Point.command : Point → List Command
  | .publish c | .await c _ | .newIterator c _ | .scan c => [c]
  | _ => []

/-- The dispatcher has not reached the end markers. -/
def Point.serving : Point → Bool
  | .mark _ | .publishMark _ | .finished => false
  | _ => true

/-- How many of the `n` queues the wait of the current scan has passed. -/
def Point.passed (n : Nat) : Point → Nat
  | .await _ j => min j n
  | .newIterator _ _ | .scan _ => n
  | _ => 0

/-- How many of the `n` iterators of the current scan are open. -/
def Point.opened (n : Nat) : Point → Nat
  | .newIterator _ j => min j n
  | .scan _ => n
  | _ => 0

/-- The command puts a request into queue `q`. -/
def routed (cfg : Config) (q : Nat) (c : Command) : Bool :=
  (c.cmd = 'R' || c.isPut) && cfg.queueOf c.key = q

/-- The key and the type of the requests that these commands put into queue `q`. -/
def sent (cfg : Config) (q : Nat) (commands : List Command) : List (UInt64 × Bool) :=
  (commands.filter (routed cfg q)).map fun c => (c.key, c.isPut)

/-- The key and the type of the published requests of queue `q`. -/
def published (s : State) (q : Nat) : List (UInt64 × Bool) :=
  (List.range (s.tail q)).map fun i => ((s.slots q i).key, (s.slots q i).write)

/-- What holds of the dispatcher, of the rows before the end markers, and of the queues that the
wait of a scan has passed. -/
structure Inv (cfg : Config) (init : Nat → Instance) (trace : List Command) (s : State) : Prop where
  history : trace = s.done ++ (s.point.command ++ s.rest)
  rows : s.point.serving → ∀ q, published s q = sent cfg q s.done
  filled : ∀ c, s.point = .publish c → (c.cmd = 'R' ∨ c.isPut) ∧
    let r := s.slots (cfg.queueOf c.key) (s.tail (cfg.queueOf c.key))
    (r.key, r.write) = (c.key, c.isPut)
  scans : ∀ c ∈ s.point.command, s.point ≠ .publish c → c.cmd = 'S'
  drained : ∀ q < s.point.passed cfg.queueNum, Worker.Drained (s.tail q) (s.workers q)
  iters : ∀ q < s.point.opened cfg.queueNum, s.iters q = db cfg init s q

section Steps

variable {cfg : Config} {init : Nat → Instance} {trace : List Command} {s t : State}

/-- The published requests stay as they are while no tail moves. -/
theorem published_eq (h : Agree s t) (htail : t.tail = s.tail) (q : Nat) :
    published t q = published s q := by
  rw [published, published, htail]
  refine List.map_congr_left fun i hi => ?_
  rw [h.slots q i (List.mem_range.mp hi)]

/-- A command that puts no request into any queue sends nothing. -/
theorem sent_skip {c : Command} (hskip : ¬ (c.cmd = 'R' ∨ c.isPut)) (q : Nat)
    (commands : List Command) : sent cfg q (commands ++ [c]) = sent cfg q commands := by
  have hnot : routed cfg q c = false := by
    simp only [not_or] at hskip
    simp [routed, hskip.1, hskip.2]
  rw [sent, List.filter_append, List.filter_singleton, hnot]
  simp [sent]

/-- A point request is sent to the queue of its key. -/
theorem sent_request {c : Command} (hrequest : c.cmd = 'R' ∨ c.isPut) (q : Nat)
    (commands : List Command) :
    sent cfg q (commands ++ [c]) =
      sent cfg q commands ++ if cfg.queueOf c.key = q then [(c.key, c.isPut)] else [] := by
  have hroute : routed cfg q c = decide (cfg.queueOf c.key = q) := by
    rcases hrequest with hread | hput
    · simp [routed, hread]
    · simp [routed, hput]
  rw [sent, List.filter_append, List.map_append, List.filter_singleton, hroute]
  by_cases hq : cfg.queueOf c.key = q <;> simp [hq, sent]

/-- Nothing holds of the queues while no scan waits. -/
theorem inv_of_idle (hhistory : trace = t.done ++ (t.point.command ++ t.rest))
    (hsent : t.point.serving → ∀ q, published t q = sent cfg q t.done)
    (hfilled : ∀ c, t.point = .publish c → (c.cmd = 'R' ∨ c.isPut) ∧
      let r := t.slots (cfg.queueOf c.key) (t.tail (cfg.queueOf c.key))
      (r.key, r.write) = (c.key, c.isPut))
    (hidle : ∀ c ∈ t.point.command, t.point = .publish c) : Inv cfg init trace t := by
  have hpassed : t.point.passed cfg.queueNum = 0 ∧ t.point.opened cfg.queueNum = 0 := by
    cases hpoint : t.point <;> simp_all [Point.command, Point.passed, Point.opened]
  refine ⟨hhistory, hsent, hfilled, fun c hc hne => absurd (hidle c hc) hne, fun q hq => ?_,
    fun q hq => ?_⟩ <;> omega

/-- The head of the loop. -/
theorem Inv.fetch (h : Inv cfg init trace s) (hpoint : s.point = .fetch)
    (hstep : SingleScan.fetch cfg s = some t) : Inv cfg init trace t := by
  have hhistory := h.history
  have hsent := h.rows (by rw [hpoint]; rfl)
  rw [hpoint] at hhistory
  obtain ⟨hrest, rfl⟩ | ⟨c, rest, hrest, ⟨hpoint', hfill⟩ | ⟨hscan, rfl⟩ | ⟨hskip, rfl⟩⟩ :=
    fetch_cases hstep
  · exact inv_of_idle hhistory (by simp [Point.serving]) (by simp) (by simp [Point.command])
  · have hagree := agree_fillSlot hfill
    obtain rfl := fillSlot_eq_some hfill
    refine inv_of_idle ?_ (fun _ q => ?_) ?_ (by simp [Point.command])
    · rw [hhistory, hrest]
      rfl
    · exact (published_eq hagree rfl q).trans (hsent q)
    · intro c' hc'
      cases hc'
      refine ⟨hpoint', ?_⟩
      simp [fillPoint]
  · refine ⟨?_, fun _ => hsent, by simp, ?_, by simp [Point.passed], by simp [Point.opened]⟩
    · rw [hhistory, hrest]
      rfl
    · intro c' hc' _
      exact List.mem_singleton.mp hc' ▸ hscan
  · refine inv_of_idle ?_ (fun _ q => ?_) (by simp [finish]) (by simp [finish, Point.command])
    · rw [hhistory, hrest]
      simp [finish, Point.command]
    · exact (hsent q).trans (sent_skip hskip q s.done).symm

/-- The increment behind the stores of a request publishes it. -/
theorem Inv.publish (h : Inv cfg init trace s) {c : Command} (hpoint : s.point = .publish c) :
    Inv cfg init trace (finish (publishSlot s (cfg.queueOf c.key)) c) := by
  have hhistory := h.history
  have hsent := h.rows (by rw [hpoint]; rfl)
  obtain ⟨hrequest, hfilled⟩ := h.filled c hpoint
  rw [hpoint] at hhistory
  refine inv_of_idle ?_ (fun _ q => ?_) (by simp [finish]) (by simp [finish, Point.command])
  · rw [hhistory]
    simp [finish, publishSlot, Point.command]
  · show published (publishSlot s (cfg.queueOf c.key)) q = sent cfg q (s.done ++ [c])
    rw [sent_request hrequest, ← hsent q]
    by_cases hq : cfg.queueOf c.key = q
    · subst hq
      rw [published, published, if_pos rfl, ← hfilled]
      simp [publishSlot, List.range_succ]
    · rw [published, published, if_neg hq, List.append_nil]
      simp [publishSlot, Function.update_of_ne (Ne.symm hq)]

/-- Between the steps of a scan nothing is published; what is left to show is which workers are
drained and which iterators are open. -/
theorem Inv.move (h : Inv cfg init trace s) {point : Point} {iters : Nat → Instance}
    (hserving : s.point.serving = true) (hcommand : point.command = s.point.command)
    (hold : ∀ c, s.point ≠ .publish c) (hnew : ∀ c, point ≠ .publish c)
    (hdrained : ∀ q < point.passed cfg.queueNum, Worker.Drained (s.tail q) (s.workers q))
    (hiters : ∀ q < point.opened cfg.queueNum, iters q = db cfg init s q) :
    Inv cfg init trace { s with iters := iters, point := point } where
  history := by
    show trace = s.done ++ (point.command ++ s.rest)
    rw [hcommand]
    exact h.history
  rows := fun _ => h.rows hserving
  filled := fun c hc => absurd hc (hnew c)
  scans := fun c hc _ => h.scans c (hcommand ▸ hc) (hold c)
  drained := hdrained
  iters := hiters

/-- The wait passes a queue whose flag is false; the hint says that its worker is drained. -/
theorem Inv.pass (h : Inv cfg init trace s) {c : Command} {j : Nat} (hpoint : s.point = .await c j)
    (hj : j < cfg.queueNum) (hdrained : Worker.Drained (s.tail j) (s.workers j)) :
    Inv cfg init trace { s with point := .await c (j + 1) } := by
  have hpassed := h.drained
  rw [hpoint] at hpassed
  refine h.move (by rw [hpoint]; rfl) (by rw [hpoint]; rfl) (by simp [hpoint]) (by simp) ?_
    (by simp [Point.opened])
  intro q hq
  simp only [Point.passed] at hq hpassed
  by_cases hlast : q = j
  · subst hlast
    exact hdrained
  · exact hpassed q (by omega)

/-- The wait is over when it has passed every queue. -/
theorem Inv.opening (h : Inv cfg init trace s) {c : Command} {j : Nat}
    (hpoint : s.point = .await c j) (hj : ¬ j < cfg.queueNum) :
    Inv cfg init trace { s with point := .newIterator c 0 } := by
  have hpassed := h.drained
  rw [hpoint] at hpassed
  refine h.move (by rw [hpoint]; rfl) (by rw [hpoint]; rfl) (by simp [hpoint]) (by simp) ?_
    (by simp [Point.opened])
  intro q hq
  simp only [Point.passed] at hq hpassed
  exact hpassed q (by omega)

/-- An iterator is opened on the contents that its instance has now. -/
theorem Inv.newIterator (h : Inv cfg init trace s) {c : Command} {j : Nat}
    (hpoint : s.point = .newIterator c j) (hj : j < cfg.queueNum) :
    Inv cfg init trace { s with
      iters := Function.update s.iters j (db cfg init s j)
      point := .newIterator c (j + 1) } := by
  have hdrained := h.drained
  have hopened := h.iters
  rw [hpoint] at hdrained hopened
  refine h.move (by rw [hpoint]; rfl) (by rw [hpoint]; rfl) (by simp [hpoint]) (by simp) hdrained ?_
  intro q hq
  simp only [Point.opened] at hq hopened
  by_cases hlast : q = j
  · subst hlast
    exact Function.update_self _ _ _
  · exact (Function.update_of_ne hlast _ _).trans (hopened q (by omega))

/-- The scan starts when all iterators are open. -/
theorem Inv.scanning (h : Inv cfg init trace s) {c : Command} {j : Nat}
    (hpoint : s.point = .newIterator c j) (hj : ¬ j < cfg.queueNum) :
    Inv cfg init trace { s with point := .scan c } := by
  have hdrained := h.drained
  have hopened := h.iters
  rw [hpoint] at hdrained hopened
  refine h.move (by rw [hpoint]; rfl) (by rw [hpoint]; rfl) (by simp [hpoint]) (by simp) hdrained ?_
  intro q hq
  simp only [Point.opened] at hq hopened
  exact hopened q (by omega)

/-- The scan puts nothing into the queues. -/
theorem Inv.scan (h : Inv cfg init trace s) {c : Command} (hpoint : s.point = .scan c) :
    Inv cfg init trace (SingleScan.scan cfg s c) := by
  have hhistory := h.history
  have hsent := h.rows (by rw [hpoint]; rfl)
  have hcmd : c.cmd = 'S' := h.scans c (by simp [hpoint, Point.command]) (by simp [hpoint])
  rw [hpoint] at hhistory
  refine inv_of_idle ?_ (fun _ q => ?_) (by simp [SingleScan.scan, finish])
    (by simp [SingleScan.scan, finish, Point.command])
  · rw [hhistory]
    simp [SingleScan.scan, finish, Point.command]
  · exact (hsent q).trans (sent_skip (by simp [Command.isPut, hcmd]) q s.done).symm

/-- Every step of the dispatcher keeps the invariant, if the hint holds when it is read. -/
theorem Inv.dispatch (h : Inv cfg init trace s)
    (hrunning : ∀ q, Worker.Running (cfg.params (init q)) (s.slots q) (s.tail q) (s.workers q))
    (hhint : HintHolds s .dispatch) (hstep : SingleScan.dispatch cfg init s = some t) :
    Inv cfg init trace t := by
  unfold SingleScan.dispatch at hstep
  cases hpoint : s.point with
  | fetch =>
      rw [hpoint] at hstep
      exact h.fetch hpoint hstep
  | publish c =>
      rw [hpoint] at hstep
      cases hstep
      exact h.publish hpoint
  | await c j =>
      simp only [hpoint] at hstep
      split_ifs at hstep with hj hbusy
      · cases hstep
        exact h
      · cases hstep
        simp only [HintHolds, hpoint] at hhint
        exact h.pass hpoint hj ((hrunning j).drained (hhint (by simpa using hbusy)))
      · cases hstep
        exact h.opening hpoint hj
  | newIterator c j =>
      simp only [hpoint] at hstep
      split_ifs at hstep with hj
      · cases hstep
        exact h.newIterator hpoint hj
      · cases hstep
        exact h.scanning hpoint hj
  | scan c =>
      rw [hpoint] at hstep
      cases hstep
      exact h.scan hpoint
  | mark j =>
      have hhistory := h.history
      simp only [hpoint] at hstep hhistory
      split_ifs at hstep
      · obtain rfl := fillSlot_eq_some hstep
        exact inv_of_idle hhistory (by simp [Point.serving]) (by simp) (by simp [Point.command])
      · cases hstep
        exact inv_of_idle hhistory (by simp [Point.serving]) (by simp) (by simp [Point.command])
  | publishMark j =>
      have hhistory := h.history
      rw [hpoint] at hstep hhistory
      cases hstep
      exact inv_of_idle hhistory (by simp [Point.serving]) (by simp) (by simp [Point.command])
  | finished =>
      rw [hpoint] at hstep
      cases hstep

/-- A worker that the wait has passed changes nothing any more. -/
theorem Inv.work (h : Inv cfg init trace s) {r : Nat} {c : Choice} {w : Worker}
    (hrunning : Worker.Running (cfg.params (init r)) (s.slots r) (s.tail r) (s.workers r))
    (hw : Worker.step (cfg.params (init r)) (s.slots r) (s.tail r) c (s.workers r) = some w) :
    Inv cfg init trace { s with workers := Function.update s.workers r w } := by
  have hvars : ∀ q < s.point.passed cfg.queueNum,
      (Function.update s.workers r w q).vars = (s.workers q).vars := by
    intro q hq
    by_cases hqr : q = r
    · subst hqr
      rw [Function.update_self]
      exact (h.drained q hq).step hrunning hw
    · rw [Function.update_of_ne hqr]
  have hpassed : s.point.opened cfg.queueNum ≤ s.point.passed cfg.queueNum := by
    cases s.point <;> simp [Point.opened, Point.passed]
  refine ⟨h.history, h.rows, h.filled, h.scans, fun q hq => ?_, fun q hq => ?_⟩
  · obtain ⟨hseq, hbatch, hreads⟩ := h.drained q hq
    exact ⟨by rw [hvars q hq]; exact hseq, by rw [hvars q hq]; exact hbatch,
      by rw [hvars q hq]; exact hreads⟩
  · rw [h.iters q hq, db, db, hvars q (Nat.lt_of_lt_of_le hq hpassed)]

/-- The invariant holds in every run in which the hint holds whenever it is read. -/
theorem inv_reachable (h : (system cfg init trace).Reachable HintHolds s) :
    Inv cfg init trace s := by
  refine h.invariant (I := Inv cfg init trace) ?_ ?_
  · exact inv_of_idle rfl (fun _ _ => rfl) (by simp [system]) (by simp [system, Point.command])
  · intro s a t hs hold hhint hstep
    cases a with
    | dispatch => exact hold.dispatch (running hs) hhint hstep
    | work r c =>
        obtain ⟨_, w, hw, rfl⟩ := work_cases hstep
        exact hold.work (running hs r) hw

/-- The write requests among the published ones are those of the puts that were sent. -/
theorem exists_put_iff {q : Nat} (hrows : published s q = sent cfg q s.done) (k : Slice) :
    (∃ i < s.tail q, isWrite (s.slots q) i = true ∧
        generateKeyFromInt cfg.keySize (s.slots q i).key = k) ↔
      ∃ put ∈ s.done, putTo cfg q put = true ∧ generateKeyFromInt cfg.keySize put.key = k := by
  have hleft : (∃ i < s.tail q, isWrite (s.slots q) i = true ∧
        generateKeyFromInt cfg.keySize (s.slots q i).key = k) ↔
      ∃ x ∈ published s q, x.2 = true ∧ generateKeyFromInt cfg.keySize x.1 = k := by
    simp [published, isWrite]
  rw [hleft, hrows, sent]
  simp only [List.mem_map, List.mem_filter, exists_exists_and_eq_and]
  constructor
  · rintro ⟨put, ⟨hput, hroute⟩, hwrite, hkey⟩
    refine ⟨put, hput, ?_, hkey⟩
    simp only [routed, Bool.and_eq_true] at hroute
    simpa [putTo, hwrite] using hroute.2
  · rintro ⟨put, hput, hroute, hkey⟩
    simp only [putTo, Bool.and_eq_true] at hroute
    exact ⟨put, ⟨hput, by simpa [routed, hroute.1] using hroute.2⟩, hroute.1, hkey⟩

end Steps

section Drained

variable {p : Params} {slots : Nat → AsyncRequest} {tail : Nat} {w : Worker}

/-- A drained worker has not exited. -/
theorem ledger_of_drained (h : Worker.Running p slots tail w) (hd : Worker.Drained tail w) :
    Ledger p slots w.vars := by
  refine h.ledger fun hexit => ?_
  have hpoint := h.paced.point
  have hseen := h.seen
  have hseq := hd.seq
  rw [hexit] at hpoint
  dsimp only at hpoint
  omega

/-- A drained worker has executed every published request. -/
theorem executed_of_drained (h : Worker.Running p slots tail w) (hd : Worker.Drained tail w) :
    ∀ i < tail, ∃ call ∈ w.vars.calls,
      i ∈ call.writeReqs ∨ i ∈ call.readReqs ∨ i ∈ call.scanReqs := by
  have hledger := ledger_of_drained h hd
  have hwrites := hledger.writes
  have hreads := hledger.reads
  have hscans := hledger.scans
  rw [hd.batch, List.append_nil, hd.seq] at hwrites
  rw [hd.reads, List.append_nil, hd.seq] at hreads
  rw [hd.seq] at hscans
  intro i hi
  -- a request is a write, a point read or a range scan
  have hkind : isWrite slots i = true ∨ isPoint slots i = true ∨ isScan slots i = true := by
    simp only [isWrite, isPoint, isScan]
    by_cases hwrite : (slots i).write = true <;> by_cases hsize : (slots i).scanSize = -1 <;>
      simp [hwrite, hsize]
  rcases hkind with hkind | hkind | hkind
  · obtain ⟨call, hcall, hmem⟩ :=
      List.mem_flatMap.mp (hwrites ▸ mem_positions.mpr ⟨hi, hkind⟩)
    exact ⟨call, hcall, .inl hmem⟩
  · obtain ⟨call, hcall, hmem⟩ :=
      List.mem_flatMap.mp (hreads ▸ mem_positions.mpr ⟨hi, hkind⟩)
    exact ⟨call, hcall, .inr (.inl hmem)⟩
  · obtain ⟨call, hcall, hmem⟩ :=
      List.mem_flatMap.mp (hscans ▸ mem_positions.mpr ⟨hi, hkind⟩)
    exact ⟨call, hcall, .inr (.inr hmem)⟩

/-- When its writes have succeeded, the instance of a drained worker holds the keys of all published
write requests. -/
theorem mem_keys_of_drained (h : Worker.Running p slots tail w) (hd : Worker.Drained tail w)
    (happlied : ∀ call ∈ w.vars.calls, call.appliedReqs = call.writeReqs) (k : Slice) :
    k ∈ (w.vars.db p).keys ↔ k ∈ p.opened.keys ∨
      ∃ i < tail, isWrite slots i = true ∧ generateKeyFromInt p.keySize (slots i).key = k := by
  have hledger := ledger_of_drained h hd
  have hwrites := hledger.writes
  rw [hd.batch, List.append_nil, hd.seq] at hwrites
  have hall : w.vars.calls.flatMap Call.appliedReqs = positions (isWrite slots) tail := by
    rw [← hwrites]
    exact List.flatMap_congr happlied
  rw [Locals.db, mem_keys_of_applied hledger.records, hall, or_comm]
  simp only [mem_positions, record, and_assoc]

end Drained

/-- In every run in which each flag that the dispatcher reads as false belongs to an idle and
up-to-date worker: when the dispatcher has left the wait loop of a scan, every worker has taken all
requests of the commands before the scan, both its batches are empty and every request has been
executed. If the worker's writes have succeeded, its instance holds exactly the initial keys and
those of the earlier puts; the scan is made on these contents. -/
theorem scan_barrier {cfg : Config} {init : Nat → Instance} {trace : List Command} {s : State}
    (h : (system cfg init trace).Reachable HintHolds s) {c : Command}
    (hleft : (∃ j, s.point = .newIterator c j) ∨ s.point = .scan c) :
    c.cmd = 'S' ∧ trace = s.done ++ c :: s.rest ∧
      (∀ q < cfg.queueNum,
        let v := (s.workers q).vars
        s.tail q = (s.done.filter (routed cfg q)).length ∧
        v.seq = s.tail q ∧ v.batch = [] ∧ v.mutligetKeys = [] ∧
        (∀ i < s.tail q, ∃ call ∈ v.calls,
          i ∈ call.writeReqs ∨ i ∈ call.readReqs ∨ i ∈ call.scanReqs) ∧
        ((∀ call ∈ v.calls, call.appliedReqs = call.writeReqs) →
          ∀ k, k ∈ (db cfg init s q).keys ↔ k ∈ (init q).keys ∨
            ∃ put ∈ s.done, putTo cfg q put = true ∧
              generateKeyFromInt cfg.keySize put.key = k)) ∧
      (s.point = .scan c → ∀ q < cfg.queueNum, s.iters q = db cfg init s q) := by
  have hinv := inv_reachable h
  have hcommand : s.point.command = [c] ∧ s.point ≠ .publish c ∧ s.point.serving = true ∧
      s.point.passed cfg.queueNum = cfg.queueNum := by
    rcases hleft with ⟨j, hpoint⟩ | hpoint <;> rw [hpoint] <;> exact ⟨rfl, by simp, rfl, rfl⟩
  obtain ⟨hcurrent, hscan, hserving, hpassed⟩ := hcommand
  refine ⟨hinv.scans c (by simp [hcurrent]) hscan, ?_, fun q hq => ?_, fun hpoint q hq => ?_⟩
  · have hhistory := hinv.history
    rwa [hcurrent] at hhistory
  · have hrunning := running h q
    have hdrained := hinv.drained q (by rwa [hpassed])
    have hledger := ledger_of_drained hrunning hdrained
    have hrows := hinv.rows hserving q
    refine ⟨?_, hdrained.seq, ?_, ?_, executed_of_drained hrunning hdrained, fun happlied k => ?_⟩
    · simpa [published, sent] using congrArg List.length hrows
    · rw [hledger.batch, hdrained.batch]
      rfl
    · refine List.length_eq_zero_iff.mp ?_
      rw [hledger.keys, hdrained.reads]
      rfl
    · rw [← exists_put_iff hrows k]
      exact mem_keys_of_drained hrunning hdrained happlied k
  · exact hinv.iters q (by rwa [hpoint])

/-- An insert of key 4, which goes to queue 0, and a scan. -/
def insertThenScan : List Command :=
  [⟨4, 0, 'I'⟩, ⟨0, 2, 'S'⟩]

/-- The program on empty instances. -/
def smallSystem : System State (Action Choice) :=
  system smallConfig (fun _ => .empty) insertThenScan

/-- The worker of queue 0 executes the insert and becomes idle before the scan. -/
def patientRun : List (Action Choice) :=
  List.replicate 2 .dispatch ++ List.replicate 7 (.work 0 (.sees 1)) ++ List.replicate 7 .dispatch

/-- When the worker is idle before the scan, the scan sees the insert. -/
theorem scan_barrier_patient :
    let final := smallSystem.after patientRun
    final.point = .scan ⟨0, 2, 'S'⟩ ∧
      (∀ q < 2, (final.workers q).vars.seq = final.tail q) ∧
      generateKeyFromInt 28 4 ∈ (final.iters 0).keys := by
  intro final
  have hreach : smallSystem.Reachable HintHolds final :=
    System.reachable_after (by decide) (by decide)
  have hpoint : final.point = .scan ⟨0, 2, 'S'⟩ := by decide
  obtain ⟨_, _, hqueues, hiters⟩ := scan_barrier hreach (.inr hpoint)
  refine ⟨hpoint, fun q hq => (hqueues q hq).2.1, ?_⟩
  rw [hiters hpoint 0 Nat.two_pos]
  refine ((hqueues 0 Nat.two_pos).2.2.2.2.2 (by decide) _).mpr (.inr ?_)
  exact ⟨⟨4, 0, 'I'⟩, by decide, by decide, rfl⟩

/-- No worker has run when the dispatcher reads the flags. -/
def hastyRun : List (Action Choice) :=
  List.replicate 9 .dispatch

/-- The worker of queue 0 has become idle before the insert and has not woken up again. -/
def sleepingRun : List (Action Choice) :=
  List.replicate 4 (.work 0 (.sees 0)) ++ List.replicate 9 .dispatch

/-- The dispatcher has left the wait loop and opened its iterators, but the insert in front of the
scan is still in its queue, and the iterator of its instance does not see its key. -/
theorem scan_barrier_passed :
    let hasty := smallSystem.after hastyRun
    let sleeping := smallSystem.after sleepingRun
    (smallSystem.Reachable (fun _ _ => True) hasty ∧ hasty.point = .scan ⟨0, 2, 'S'⟩ ∧
      hasty.tail 0 = 1 ∧ (hasty.workers 0).vars.seq = 0 ∧
      generateKeyFromInt 28 4 ∉ (hasty.iters 0).keys) ∧
    (smallSystem.Reachable (fun _ _ => True) sleeping ∧ sleeping.point = .scan ⟨0, 2, 'S'⟩ ∧
      sleeping.tail 0 = 1 ∧ (sleeping.workers 0).vars.seq = 0 ∧
      (sleeping.workers 0).pc = .wait ∧ generateKeyFromInt 28 4 ∉ (sleeping.iters 0).keys) := by
  intro hasty sleeping
  constructor
  · exact ⟨System.reachable_after_free (by decide), by decide⟩
  · exact ⟨System.reachable_after_free (by decide), by decide⟩

end P2KVS.Ycsb.SingleScan
