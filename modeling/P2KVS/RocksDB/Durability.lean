import P2KVS.RocksDB.Account.Books

/-!
# What a write that returns OK has done

Read off the accounts of the groups, for every interleaving and whatever the calls of each step
return: which writes are in the log and in the memtable, and what a write returns when an insertion
fails. A leader that inserts all batches itself keeps a failure to itself: its followers return OK.
-/

namespace P2KVS.WriteImpl

open Transition WriteThread

section Runs

variable {c : Config} {start : Nat} {db db' : Db} {allowed : Db → Action → Prop}

/-- The write thread below takes a step of its own. -/
theorem step_thread {a : Action} (h : step c db a = some db') :
    ∃ b, WriteThread.step c db.thread b = some db'.thread := by
  cases a with
  | start x | retry x =>
      simp only [step, bind, Option.bind_eq_some_iff] at h
      obtain ⟨t, ht, h⟩ := h
      cases h
      exact ⟨_, ht⟩
  | move x o =>
      simp only [step, bind, Option.bind_eq_some_iff] at h
      obtain ⟨t, ht, h⟩ := h
      cases h
      exact ⟨_, ht⟩

/-- The write thread of a reachable state is one that the write thread alone can reach. -/
theorem thread_reachable (h : (system c start).Reachable allowed db) :
    (WriteThread.system c).Reachable (fun _ _ => True) db.thread := by
  refine h.simulate (fun db => db.thread) rfl ?_
  intro s a t _ _ hstep
  obtain ⟨b, hb⟩ := step_thread hstep
  exact .inr ⟨b, trivial, hb⟩

/-- The books are right in every reachable state. -/
theorem books_reachable (h : (system c start).Reachable allowed db) : Books c db := by
  refine h.invariant (I := Books c) ?_ ?_
  · refine ⟨?_, ?_, ?_, ?_, ?_, ?_, ?_⟩ <;> simp [system, WriteThread.system, Ledger, Pc.gathering]
  · intro s a t hs hbooks _ hstep
    obtain ⟨v, hv⟩ := sim_reachable (thread_reachable hs)
    obtain ⟨x, o, u, hturn, rfl, _⟩ := step_turn hv hstep
    exact hbooks.step hv hturn

/-- A write that returned was a member of a group that has been applied. -/
theorem Books.account_of_returned (h : Books c db) {v : View} (hsim : Sim c db.thread v) {w : Nat}
    (hret : db.thread.pc w = .returned) (hbatch : (c.request w).batch ≠ none) :
    ∃ M ∈ db.thread.formed, ∃ g, M.head? = some g ∧ w ∈ M ∧ Account c db M g := by
  obtain ⟨M, hM, hw⟩ := List.mem_flatten.mp (hsim.formed_of_returned hret)
  obtain ⟨g, rest, rfl⟩ := List.exists_cons_of_ne_nil (List.ne_nil_of_mem hw)
  have hg : (c.request g).batch ≠ none := by
    intro hnone
    have heq := h.alone _ hM g rfl hnone
    rw [heq, List.mem_singleton] at hw
    exact hbatch (hw ▸ hnone)
  refine ⟨_, hM, g, rfl, hw, h.ledger _ hM g rfl hg fun hpc => ?_⟩
  -- the members wait while the leader has not applied the group
  obtain ⟨hphase, ⟨rest', hfront⟩, hserial⟩ := hsim.serial_of_pc (.inl hpc)
  have hcurrent := hsim.current hfront (by simp [hphase]) hserial.closed
  have heq := hsim.formed_unique hcurrent.formed hM hcurrent.leader_mem (by simp)
  by_cases hwg : w = g
  · simp [hwg, hpc] at hret
  · have hwait := (hserial.waiting w (by rw [heq]; exact hw) hwg).1
    simp [hret] at hwait

end Runs

/-- Two writers of one entry each, put or merged. -/
def twoWriters (merge : Bool) : Config where
  request _ := ⟨some ⟨20, 1, merge⟩, false, false, false, false, none⟩
  maxWriteBatchGroupSizeBytes := 1024

/-- Consecutive steps of one thread, in which all calls succeed. -/
def succeed (x n : Nat) : List Action :=
  List.replicate n (.move x ⟨.ok, 0, false, 0⟩)

/-- Both writers are linked. -/
def twoLinked : List Action :=
  [.start 0, .start 1] ++ succeed 0 2 ++ succeed 1 2

/-- When the leader has written the log and inserts the batches of its group alone, a follower
returns the status of its own callback, whether the insertion has succeeded or not. -/
theorem serial_failure_is_hidden {c : Config} {start : Nat} {db : Db}
    (h : (system c start).Reachable (fun _ _ => True) db) {group : List Nat} {leader w : Nat}
    {status : Status} (hgroup : group ∈ db.thread.formed) (hhead : group.head? = some leader)
    (hw : w ∈ group) (hne : w ≠ leader) (hserial : parallel c group = false)
    (hlog : db.localStatus leader = .ok) (hresult : db.result w = some status) :
    status = callbackStatus c w := by
  have hbooks := books_reachable h
  obtain ⟨v, hsim⟩ := sim_reachable (thread_reachable h)
  obtain ⟨hret, hbatch⟩ := hbooks.finished w (by simp [hresult])
  have hreturns : db.returns c w = status :=
    Option.some.inj ((hbooks.result w hbatch hret).symm.trans hresult)
  obtain ⟨M, hM, g, hhead', hwM, haccount⟩ := hbooks.account_of_returned hsim hret hbatch
  obtain rfl := hsim.formed_unique hM hgroup hwM hw
  obtain rfl : g = leader := Option.some.inj (hhead'.symm.trans hhead)
  have hm := haccount.members w hw
  have hstatus : db.status w = .ok := by
    rw [hm.told hne (hm.returned hne hret), Db.fate, if_pos hlog]
    exact haccount.quiet hserial
  have hown : ¬ db.thread.writeGroup w = some w := by
    rw [haccount.owner w hw]
    exact fun heq => hne (Option.some.inj heq).symm
  rw [← hreturns, Db.returns, Db.finalStatus]
  simp [hown, hstatus]

/-- The leader of two merges fails to insert anything; then both return. -/
def twoFail : List Action :=
  twoLinked ++ succeed 0 8 ++ [.move 0 ⟨.ioError, 0, false, 0⟩] ++ succeed 0 5 ++ succeed 1 1

/-- The follower of the leader that failed returns OK. -/
theorem serial_failure_is_hidden_two :
    let db := (system (twoWriters true) 10).after twoFail
    db.memtable = [] ∧ db.result 0 = some .ioError ∧ db.result 1 = some .ok ∧
      Status.ok = callbackStatus (twoWriters true) 1 := by
  intro db
  have hgroup : [0, 1] ∈ db.thread.formed := by decide
  have hhead : [0, 1].head? = some 0 := rfl
  have hresult : db.result 1 = some .ok := by decide
  exact ⟨by decide, by decide, hresult,
    serial_failure_is_hidden (System.reachable_after_free (by decide)) hgroup hhead (by decide)
      (by decide) (by decide) (by decide) hresult⟩

end P2KVS.WriteImpl
