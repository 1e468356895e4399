import P2KVS.ScanTest.System

/-!
# The handshake over `scan_status`

The flag of a lane is stored by its worker and by the merge thread, without any compare-and-swap.
`Handshake` says how the flag, the worker and the merge thread stand to each other in every
reachable state, for any number of rounds. `scan_buffers_exclusive` draws the consequence: between
the moment the merge thread has seen `MERGE_START` on all queues and the moment it stores
`SCAN_OVER` to a queue, the worker of that queue modifies its buffer only while the merge thread
waits for it.
-/

namespace P2KVS.ScanTest

open Sorted Storage Transition

/-- The worker is between publishing its buffer and noticing `SCAN_OVER`. -/
def Pc.inside : Pc → Bool
  | .waitOver | .checkNeed | .refill _ | .iterOver => true
  | _ => false

/-- The worker answers `NEED_ITER`. -/
def Pc.serving : Pc → Bool
  | .refill _ | .iterOver => true
  | _ => false

/-- The worker is about to store to its buffer: it fills, refills or clears it. -/
def Pc.modifies : Pc → Bool
  | .first | .fill _ _ | .refill _ | .clear => true
  | _ => false

namespace MergePc

/-- The merge thread has seen `MERGE_START` on queue `q` in this round and has not stored
`SCAN_OVER` to it yet. -/
def Engaged (q : Nat) : MergePc → Prop
  | .waitStart i => q < i
  | .release i => i ≤ q
  | .done => False
  | _ => True

/-- The merge thread has seen `MERGE_START` on all queues in this round and has not stored
`SCAN_OVER` to queue `q` yet. -/
def Holding (q : Nat) : MergePc → Prop
  | .waitStart _ => False
  | .release i => i ≤ q
  | .done => False
  | _ => True

/-- The merge thread may have asked queue `q` for more keys in this round. -/
def Asking (q : Nat) : MergePc → Prop
  | .waitStart _ => False
  | .find _ _ none => False
  | .release i => i ≤ q
  | .done => False
  | _ => True

/-- Seeing `MERGE_START` on all queues includes seeing it on each. -/
theorem Holding.engaged {q : Nat} {pc : MergePc} (h : pc.Holding q) : pc.Engaged q := by
  cases pc with
  | waitStart i => exact h.elim
  | _ => exact h

end MergePc

namespace Merge

/-- How often the merge thread has stored `SCAN_OVER` to queue `q`. -/
def released (m : Merge) (q : Nat) : Nat :=
  m.seq + match m.pc with
    | .release i => if q < i then 1 else 0
    | _ => 0

/-- The merge thread waits for `ITER_OVER` on queue `q`. -/
def WaitsFor (m : Merge) (q : Nat) : Prop :=
  (∃ i, m.pc = .waitIter i) ∧ m.current = q

end Merge

/-- How the flag of lane `q`, its worker and the merge thread stand to each other. -/
structure Handshake (m : Merge) (q : Nat) (l : Lane) : Prop where
  count : l.published = m.released q + if l.status = .scanOver then 0 else 1
  outside : l.pc.inside = false → l.status = .scanOver
  serving : l.pc.serving = true → l.status = .needIter
  engaged : m.pc.Engaged q → l.status ≠ .scanOver
  fresh : ¬ m.pc.Asking q → l.status = .scanOver ∨ l.status = .mergeStart
  need : l.status = .needIter → m.WaitsFor q

namespace Handshake

variable {p : Program} {m : Merge} {q : Nat} {l : Lane}

/-- A worker step that touches neither the flag nor the number of publications. -/
theorem frame (h : Handshake m q l) {l' : Lane} (hstatus : l'.status = l.status)
    (hpublished : l'.published = l.published)
    (houtside : l'.pc.inside = false → l.pc.inside = false ∨ l.status = .scanOver)
    (hserving : l'.pc.serving = true → l.pc.serving = true ∨ l.status = .needIter) :
    Handshake m q l' where
  count := by rw [hstatus, hpublished, h.count]
  outside := fun hout => hstatus ▸ (houtside hout).elim h.outside id
  serving := fun hserve => hstatus ▸ (hserving hserve).elim h.serving id
  engaged := fun hengaged => hstatus ▸ h.engaged hengaged
  fresh := fun hfresh => hstatus ▸ h.fresh hfresh
  need := fun hneed => h.need (hstatus ▸ hneed)

/-- Every step of the worker keeps the handshake. -/
theorem work (h : Handshake m q l) {l' : Lane} (hmove : l.Move p q l') : Handshake m q l' := by
  cases hmove with
  | poll t pc hpc hnext =>
      obtain rfl | rfl := hnext
      · exact h.frame rfl rfl (by simp [Pc.inside, hpc]) (by simp [Pc.serving])
      · exact h.frame rfl rfl (by simp [Pc.inside, hpc]) (by simp [Pc.serving])
  | finish hpc | take hpc | first _ hpc | fill _ _ _ hpc | filled _ _ _ hpc | clear hpc
  | advance hpc =>
      exact h.frame rfl rfl (by simp [Pc.inside, hpc]) (by simp [Pc.serving])
  | seek iter hpc _ =>
      refine h.frame rfl rfl (by simp [Pc.inside, hpc]) ?_
      dsimp only
      split_ifs <;> simp [Pc.serving]
  | publish hpc =>
      have hover : l.status = .scanOver := h.outside (by simp [Pc.inside, hpc])
      have hcount := h.count
      rw [if_pos hover] at hcount
      exact ⟨by simp [hcount], by simp [Pc.inside], by simp [Pc.serving], by simp, by simp,
        by simp⟩
  | released hpc hstatus => exact h.frame rfl rfl (by simp [hstatus]) (by simp [Pc.serving])
  | notOver hpc _ => exact h.frame rfl rfl (by simp [Pc.inside]) (by simp [Pc.serving])
  | needed hpc hstatus => exact h.frame rfl rfl (by simp [Pc.inside]) (by simp [hstatus])
  | notNeeded hpc _ => exact h.frame rfl rfl (by simp [Pc.inside]) (by simp [Pc.serving])
  | refill i hpc _ _ =>
      exact h.frame rfl rfl (by simp [Pc.inside]) (by simp [Pc.serving, hpc])
  | refilled i iter hpc _ =>
      exact h.frame rfl rfl (by simp [Pc.inside]) (by simp [Pc.serving, hpc])
  | iterOver hpc =>
      have hneed : l.status = .needIter := h.serving (by simp [Pc.serving, hpc])
      -- the merge thread is still waiting, so the answer is not mistaken for a publication
      obtain ⟨⟨i, hwait⟩, _⟩ := h.need hneed
      have hcount := h.count
      rw [if_neg (by simp [hneed])] at hcount
      refine ⟨by simp [hcount], by simp [Pc.inside], by simp [Pc.serving], by simp, ?_, by simp⟩
      intro hfresh
      rw [hwait] at hfresh
      exact absurd trivial hfresh

/-- A step of the merge thread that stores no flag to queue `q`. -/
theorem observe (h : Handshake m q l) {m' : Merge} (hreleased : m'.released q = m.released q)
    (hengaged : m'.pc.Engaged q → m.pc.Engaged q ∨ l.status = .mergeStart)
    (hasking : m.pc.Asking q → m'.pc.Asking q)
    (hneed : l.status = .needIter → m'.WaitsFor q) : Handshake m' q l where
  count := hreleased ▸ h.count
  outside := h.outside
  serving := h.serving
  engaged := fun hnew => (hengaged hnew).elim h.engaged fun hstart => by simp [hstart]
  fresh := fun hfresh => h.fresh (mt hasking hfresh)
  need := hneed

/-- No queue is asked for keys unless the merge thread waits. -/
theorem not_need (h : Handshake m q l) (hpc : ∀ i, m.pc ≠ .waitIter i) : l.status ≠ .needIter :=
  fun hneed => (h.need hneed).1.elim fun i hwait => hpc i hwait

/-- A step of the merge thread in the middle of a round that stores no flag to queue `q`. -/
theorem proceed (h : Handshake m q l) {m' : Merge} (hreleased : m'.released q = m.released q)
    (hengaged : m.pc.Engaged q) (hasking : m.pc.Asking q → m'.pc.Asking q)
    (hwait : ∀ i, m.pc ≠ .waitIter i) : Handshake m' q l :=
  h.observe hreleased (fun _ => .inl hengaged) hasking fun hneed => absurd hneed (h.not_need hwait)

/-- The merge thread asks queue `q` for keys. -/
theorem ask (h : Handshake m q l) {i : Nat} (hpc : m.pc = .needIter i) (hcurrent : m.current = q) :
    Handshake { m with pc := .waitIter i } q { l with status := .needIter } := by
  have hstatus : l.status ≠ .scanOver := h.engaged (by rw [hpc]; trivial)
  have hcount := h.count
  rw [if_neg hstatus] at hcount
  refine ⟨?_, fun hout => absurd (h.outside hout) hstatus, fun _ => rfl, by simp, ?_, ?_⟩
  · simpa [Merge.released, hpc] using hcount
  · intro hfresh
    exact absurd trivial hfresh
  · intro _
    exact ⟨⟨i, rfl⟩, hcurrent⟩

/-- The merge thread releases queue `q`, where `m'` is its state behind the store. -/
theorem free (h : Handshake m q l) (hpc : m.pc = .release q) {m' : Merge}
    (hreleased : m'.released q = m.seq + 1) (hengaged : ¬ m'.pc.Engaged q) :
    Handshake m' q { l with status := .scanOver } := by
  have hstatus : l.status ≠ .scanOver := h.engaged (by rw [hpc]; exact Nat.le_refl q)
  have hcount := h.count
  rw [if_neg hstatus] at hcount
  refine ⟨?_, fun _ => rfl, ?_, fun hnew => absurd hnew hengaged, fun _ => .inl rfl, by simp⟩
  · have hold : m.released q = m.seq := by simp [Merge.released, hpc]
    simp [hcount, hold, hreleased]
  · intro hserve
    exact absurd (h.serving hserve) (h.not_need (by simp [hpc]))

/-- Every step of the merge thread keeps the handshake with every queue. -/
theorem merge {lanes : Nat → Lane} {buffer : Nat → Vec KeyRef} {m' : Merge}
    {store : Option (Nat × ScanStatus)} (h : ∀ q < p.queueNum, Handshake m q (lanes q))
    (hmove : m.Move p (fun q => (lanes q).status) buffer m' store) :
    ∀ q < p.queueNum, Handshake m' q (setStatus lanes store q) := by
  intro q hq
  have hold := h q hq
  cases hmove with
  | idle _ => exact hold
  | started i hpc hstatus _ =>
      refine hold.observe (by simp [Merge.released, hpc]) ?_ (by simp [hpc, MergePc.Asking]) ?_
      · intro hnew
        rcases Nat.lt_succ_iff_lt_or_eq.mp (show q < i + 1 from hnew) with hlt | rfl
        · exact .inl (by rw [hpc]; exact hlt)
        · exact .inr hstatus
      · exact fun hneed => absurd hneed (hold.not_need (by simp [hpc]))
  | construct i hpc hstatus hlast =>
      refine hold.observe (by simp [Merge.released, Merge.construct, hpc]) ?_
        (by simp [hpc, MergePc.Asking]) ?_
      · intro _
        rcases Nat.lt_or_eq_of_le (show q ≤ i by omega) with hlt | rfl
        · exact .inl (by rw [hpc]; exact hlt)
        · exact .inr hstatus
      · exact fun hneed => absurd hneed (hold.not_need (by simp [hpc]))
  | read i best caller key _ hpc _ _ =>
      refine hold.proceed (by simp [Merge.released, hpc]) (by rw [hpc]; trivial) ?_ (by simp [hpc])
      cases caller <;> simp [hpc, MergePc.Asking]
  | found _ _ _ _ hpc _ | short _ hpc _ | abort _ hpc _ =>
      exact hold.proceed (by simp [Merge.released, hpc]) (by rw [hpc]; trivial) (fun _ => trivial)
        (by simp [hpc])
  | next i hpc _ =>
      obtain hpc | hpc := hpc
      all_goals
        exact hold.proceed (by simp [Merge.released, hpc]) (by rw [hpc]; trivial) (fun _ => trivial)
          (by simp [hpc])
  | finished i hpc _ =>
      exact hold.proceed (by simp [Merge.released, hpc]) (by rw [hpc]; trivial)
        (fun _ => Nat.zero_le q) (by simp [hpc])
  | need i hpc =>
      by_cases hcurrent : m.current = q
      · subst hcurrent
        rw [setStatus, Function.update_self]
        exact hold.ask hpc rfl
      · rw [setStatus, Function.update_of_ne (Ne.symm hcurrent)]
        exact hold.proceed (by simp [Merge.released, hpc]) (by rw [hpc]; trivial) (fun _ => trivial)
          (by simp [hpc])
  | served i hpc hstatus =>
      refine hold.observe (by simp [Merge.released, hpc]) (fun _ => .inl (by rw [hpc]; trivial))
        (fun _ => trivial) ?_
      -- a queue that is asked for keys is the current one, whose flag has just been read
      intro hneed
      obtain ⟨_, rfl⟩ := hold.need hneed
      exact absurd hneed (by simp [show (lanes m.current).status = .iterOver from hstatus])
  | release i hpc _ =>
      -- the queues in front of `i` are released already, those behind it still wait
      by_cases heq : q = i
      · subst heq
        rw [setStatus, Function.update_self]
        exact hold.free hpc (by simp [Merge.released]) (by simp [MergePc.Engaged])
      · rw [setStatus, Function.update_of_ne heq]
        refine hold.observe ?_ ?_ ?_ ?_
        · simp only [Merge.released, hpc]
          congr 1
          exact if_congr (by omega) rfl rfl
        · intro hnew
          have hle : i + 1 ≤ q := hnew
          exact .inl (by rw [hpc]; exact (show i ≤ q by omega))
        · intro hasking
          rw [hpc] at hasking
          have hle : i ≤ q := hasking
          exact (show i + 1 ≤ q by omega)
        · exact fun hneed => absurd hneed (hold.not_need (by simp [hpc]))
  | roundOver i hpc hlast =>
      have hreleased : ∀ {seq : Nat},
          ({ m with seq := seq, pc := Merge.roundHead p seq } : Merge).released q = seq := by
        intro seq
        unfold Merge.roundHead
        split_ifs <;> simp [Merge.released]
      have hengaged : ¬ (Merge.roundHead p (m.seq + 1)).Engaged q := by
        unfold Merge.roundHead
        split_ifs <;> simp [MergePc.Engaged]
      by_cases heq : q = i
      · subst heq
        rw [setStatus, Function.update_self]
        exact hold.free hpc hreleased hengaged
      · rw [setStatus, Function.update_of_ne heq]
        refine hold.observe ?_ (fun hnew => absurd hnew hengaged) ?_ ?_
        · rw [hreleased, Merge.released, hpc]
          simp only [if_pos (show q < i by omega)]
        · intro hasking
          rw [hpc] at hasking
          have hle : i ≤ q := hasking
          omega
        · exact fun hneed => absurd hneed (hold.not_need (by simp [hpc]))

end Handshake

/-- A property that all lanes have, when one lane is replaced. -/
theorem forall_update {P : Nat → Lane → Prop} {n q : Nat} {lanes : Nat → Lane} {l : Lane}
    (h : ∀ r < n, P r (lanes r)) (hl : P q l) : ∀ r < n, P r (Function.update lanes q l r) :=
  (Function.forall_update_iff lanes fun r l => r < n → P r l).mpr ⟨fun _ => hl, fun r _ => h r⟩

/-- The handshake holds with every queue in every reachable state. -/
theorem handshake_reachable {p : Program} {allowed : State → Action → Prop} {s : State}
    (h : (system p).Reachable allowed s) : ∀ q < p.queueNum, Handshake s.merge q (s.lanes q) := by
  refine h.invariant (I := fun s => ∀ q < p.queueNum, Handshake s.merge q (s.lanes q)) ?_ ?_
  · intro q _
    have hpc : ¬ (Merge.roundHead p 0).Engaged q := by
      unfold Merge.roundHead
      split_ifs <;> simp [MergePc.Engaged]
    have hreleased : (Merge.start p).released q = 0 := by
      unfold Merge.released Merge.start Merge.roundHead
      split_ifs <;> rfl
    exact ⟨by simp [system, Lane.start, hreleased], fun _ => rfl,
      by simp [system, Lane.start, Pc.serving], fun hengaged => absurd hengaged hpc,
      fun _ => .inl rfl, by simp [system, Lane.start]⟩
  intro s a t _ hinv _ hstep
  obtain ⟨q, _, l, _, hq, hmove, rfl⟩ | ⟨_, m, store, _, hmove, rfl⟩ := step_cases hstep
  · exact forall_update hinv ((hinv q hq).work hmove)
  · exact Handshake.merge hinv hmove

/-- While the iterator of a round is constructed, every queue shows `MERGE_START`. -/
theorem constructing_shown {p : Program} {allowed : State → Action → Prop} {s : State}
    (h : (system p).Reachable allowed s) {i : Nat} {best : Option (Nat × KeyRef)}
    (hpc : s.merge.pc = .find i best none) {q : Nat} (hq : q < p.queueNum) :
    (s.lanes q).status = .mergeStart := by
  have hshake := handshake_reachable h q hq
  have hengaged := hshake.engaged (by rw [hpc]; trivial)
  exact (hshake.fresh (by rw [hpc]; exact id)).resolve_left hengaged

/-- The merge thread stores neither `MERGE_START` nor `ITER_OVER`. -/
theorem Merge.Move.store_ne {p : Program} {status : Nat → ScanStatus} {buffer : Nat → Vec KeyRef}
    {m m' : Merge} {q : Nat} {stored : ScanStatus}
    (h : m.Move p status buffer m' (some (q, stored))) :
    stored ≠ .mergeStart ∧ stored ≠ .iterOver := by
  cases h with
  | need | release | roundOver => simp

/-- A property of single lanes holds in every reachable state if it holds at the start, every step
of a worker in a lane with the handshake keeps it, and a flag other than `MERGE_START` and
`ITER_OVER` may be stored at any time. -/
theorem lanes_reachable {p : Program} {allowed : State → Action → Prop} {P : Nat → Lane → Prop}
    (hstart : ∀ q, P q (.start (p.db q)))
    (hwork : ∀ {s : State} {q tail : Nat} {l : Lane}, allowed s (.work q tail) →
      Handshake s.merge q (s.lanes q) → P q (s.lanes q) → (s.lanes q).Move p q l → P q l)
    (hstore : ∀ {q : Nat} {l : Lane} {status : ScanStatus},
      status ≠ .mergeStart ∧ status ≠ .iterOver → P q l → P q { l with status := status })
    {s : State} (h : (system p).Reachable allowed s) : ∀ q < p.queueNum, P q (s.lanes q) := by
  refine h.invariant (I := fun s => ∀ q < p.queueNum, P q (s.lanes q)) (fun q _ => hstart q) ?_
  intro s a t hs hinv hallowed hstep
  obtain ⟨q, tail, l, rfl, hq, hmove, rfl⟩ | ⟨_, m, store, rfl, hmove, rfl⟩ := step_cases hstep
  · exact forall_update hinv (hwork hallowed (handshake_reachable hs q hq) (hinv q hq) hmove)
  · cases store with
    | none => exact hinv
    | some stored =>
        intro q hq
        by_cases heq : q = stored.1
        · subst heq
          simp only [setStatus, Function.update_self]
          exact hstore hmove.store_ne (hinv _ hq)
        · simp only [setStatus, Function.update_of_ne heq]
          exact hinv q hq

/-- A step that changes a buffer is one of its own worker, at a point that modifies the buffer. -/
theorem buffer_changes {p : Program} {s t : State} {a : Action} (hstep : step p s a = some t)
    {q : Nat} (hne : (t.lanes q).buffer ≠ (s.lanes q).buffer) :
    (∃ tail, a = .work q tail) ∧ (s.lanes q).pc.modifies = true := by
  obtain ⟨r, tail, l, rfl, _, hmove, rfl⟩ | ⟨_, m, store, _, _, rfl⟩ := step_cases hstep
  · by_cases heq : q = r
    · subst heq
      refine ⟨⟨tail, rfl⟩, ?_⟩
      simp only [Function.update_self] at hne
      cases hmove with
      | first _ hpc | fill _ _ _ hpc | refill _ hpc | clear hpc => simp [hpc, Pc.modifies]
      | _ => exact absurd rfl hne
    · simp [Function.update_of_ne heq] at hne
  · obtain ⟨status, heq⟩ := setStatus_eq s.lanes store q
    exact absurd (congrArg Lane.buffer heq) hne

/-- The buffers are used exclusively. In every reachable state, while the merge thread has seen
`MERGE_START` on all queues and has not stored `SCAN_OVER` to queue `q`, worker `q` is at a point
that modifies its buffer only if the flag is `NEED_ITER`; the merge thread then waits for
`ITER_OVER` on that queue, and its step reads no buffer. No other step changes a buffer. When the
merge thread is about to store `SCAN_OVER` to a queue, the worker of that queue has published for
this round and not yet for the next. -/
theorem scan_buffers_exclusive {p : Program} {s : State}
    (h : (system p).Reachable (fun _ _ => True) s) {q : Nat} (hq : q < p.queueNum) :
    (s.merge.pc.Holding q → (s.lanes q).pc.modifies = true →
      (s.lanes q).status = .needIter ∧ s.merge.WaitsFor q ∧
        ∀ junk junk' buffer, s.merge.step p junk (fun r => (s.lanes r).status) buffer =
          s.merge.step p junk' (fun r => (s.lanes r).status) (fun r => (s.lanes r).buffer)) ∧
    (∀ {a : Action} {t : State}, step p s a = some t → (t.lanes q).buffer ≠ (s.lanes q).buffer →
      (∃ tail, a = .work q tail) ∧ (s.lanes q).pc.modifies = true) ∧
    (s.merge.pc = .release q → (s.lanes q).published = s.merge.seq + 1) := by
  have hshake := handshake_reachable h q hq
  refine ⟨fun hholding hmodifies => ?_, fun hstep hne => buffer_changes hstep hne,
    fun hrelease => ?_⟩
  · have hstatus := hshake.engaged hholding.engaged
    have hneed : (s.lanes q).status = .needIter := by
      cases hpc : (s.lanes q).pc with
      | refill i => exact hshake.serving (by simp [hpc, Pc.serving])
      | first | fill _ _ | clear => exact absurd (hshake.outside (by simp [hpc, Pc.inside])) hstatus
      | _ => simp [hpc, Pc.modifies] at hmodifies
    obtain ⟨⟨i, hwait⟩, hcurrent⟩ := hshake.need hneed
    exact ⟨hneed, ⟨⟨i, hwait⟩, hcurrent⟩, fun _ _ _ => by simp only [Merge.step, hwait]⟩
  · have hstatus := hshake.engaged (by rw [hrelease]; exact Nat.le_refl q)
    have hcount := hshake.count
    rw [if_neg hstatus] at hcount
    simpa [Merge.released, hrelease] using hcount

/-- One queue over three keys, and one scan of size 1. -/
def oneQueue : Program where
  queueNum := 1
  readNum := 1
  scans := [(0, 1)]
  db := fun _ => ⟨[([1], []), ([2], []), ([3], [])], by decide⟩
  assertions := true
  queueNum_pos := Nat.one_pos

/-- `n` steps of the merge thread, with empty bytes in the memory of the strings that are gone. -/
def merges (n : Nat) : List Action :=
  List.replicate n (.merge fun _ => [])

/-- The worker publishes its buffer, the merge thread asks for more keys, and the worker begins to
answer. -/
def refillRun : List Action :=
  List.replicate 6 (.work 0 1) ++ merges 5 ++ List.replicate 2 (.work 0 1)

/-- While that worker pushes keys, the merge thread waits for it. -/
theorem scan_buffers_exclusive_refill :
    let s := (system oneQueue).after refillRun
    s.merge.pc.Holding 0 ∧ (s.lanes 0).pc.modifies = true ∧ (s.lanes 0).status = .needIter ∧
      s.merge.WaitsFor 0 := by
  intro s
  have hreach : (system oneQueue).Reachable (fun _ _ => True) s :=
    System.reachable_after (by decide) (by decide)
  have hexclusive := (scan_buffers_exclusive hreach (by decide : 0 < 1)).1 trivial (by decide)
  exact ⟨trivial, by decide, hexclusive.1, hexclusive.2.1⟩

end P2KVS.ScanTest
