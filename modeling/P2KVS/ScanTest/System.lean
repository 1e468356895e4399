import P2KVS.Foundation.Storage
import P2KVS.Foundation.Transition
import P2KVS.Merge.Iterator
import P2KVS.Store.Instance

/-!
# The parallel scan of `scan_test.cpp`

`scan_test.cpp` with `MULTITHREAD_SCAN`: `QUEUE_NUM` workers that prefetch keys into one buffer
each, and a merge thread that walks over the buffers with `vector_merge_iter`. A worker and the
merge thread hand the buffer over through the flag `scan_status`. Every step makes at most one
access to the flags or the buffers: a read or store of a flag, the store of one element, one
`push_back`, one `clear`, or the read of one element or size.

All queues receive the same requests, and a worker may observe any tail it has not passed, so the
dispatcher needs no state of its own.

The buffers are vectors of `rocksdb::Slice`, references to strings of the workers. Only the string
of the first key of a fill outlives its loop; the other slices dangle when the merge thread comes to
read them, and read as whatever stands in the memory then (`KeyRef`). Any other undefined behaviour
and a failed assertion of RocksDB are steps that are not enabled; a failed assertion of the merge
thread stops the program.
-/

namespace P2KVS.ScanTest

open Sorted Storage Transition

/-- `SCAN_STATUS`. -/
inductive ScanStatus where
  | scanOver
  | mergeStart
  | needIter
  | iterOver
  deriving DecidableEq, Repr

/-- What a worker reads of `async_requests`. -/
structure AsyncRequest where
  seq : Int
  key : Int
  scanSize : Int
  deriving DecidableEq, Repr

/-- The default constructor of `async_requests`, which initialises every slot. -/
def AsyncRequest.blank : AsyncRequest :=
  ⟨0, 0, 0⟩

/-- A run of the program: `QUEUE_NUM`, `READ_NUM`, the key and size of each scan that the dispatcher
broadcasts, the contents of the instances, and whether `Next` on an exhausted iterator fails its
assertion. -/
structure Program where
  queueNum : Nat
  readNum : Nat
  scans : List (Int × Int)
  db : Nat → Instance
  assertions : Bool
  queueNum_pos : 0 < queueNum

namespace Program

/-- What the dispatcher leaves in every queue. -/
def content (p : Program) : List AsyncRequest :=
  p.scans.mapIdx (fun i scan => ⟨i, scan.1, scan.2⟩) ++ [⟨-1, -1, 0⟩]

/-- A slot of a queue. -/
def slot (p : Program) (i : Nat) : AsyncRequest :=
  p.content.getD i .blank

end Program

/-- The start key of a scan, with `key_size_` 28; the `int` key is converted to `uint64_t`. -/
def startKey (r : AsyncRequest) : Slice :=
  generateKeyFromInt 28 (UInt64.ofInt r.key)

/-- A `rocksdb::Slice` in a buffer: the key of the string it was made of, and whether that string
still exists. -/
structure KeyRef where
  key : Slice
  live : Bool
  deriving DecidableEq, Repr

namespace KeyRef

/-- What the slice reads as, when the memory of a string that is gone holds `junk`. -/
def read (junk : Slice) (r : KeyRef) : Slice :=
  if r.live then r.key else junk

/-- The string of the slice is destroyed. -/
def expire (r : KeyRef) : KeyRef :=
  { r with live := false }

end KeyRef

/-- The program points of `worker_thread`. In `fill i size` and `refill i` the loop variable is
`i`. -/
inductive Pc where
  | poll
  | check
  | seek
  | first
  | fill (i size : Nat)
  | publish
  | waitOver
  | checkNeed
  | refill (i : Nat)
  | iterOver
  | clear
  | advance
  | exited
  deriving DecidableEq, Repr

/-- One lane of the program: the flag `scan_status[q]`, the buffer `scans[q]`, and worker `q` with
its local variables. `published` is a history variable: how often the worker has stored
`MERGE_START`. -/
structure Lane where
  status : ScanStatus
  buffer : Vec KeyRef
  pc : Pc
  seq : Nat
  seen : Nat
  request : AsyncRequest
  iter : Cursor Slice Slice
  published : Nat

namespace Lane

/-- A lane at the start, after `scans[q].reserve(100)`. -/
def start (db : Instance) : Lane where
  status := .scanOver
  buffer := .reserve 100
  pc := .poll
  seq := 0
  seen := 0
  request := .blank
  iter := .start db
  published := 0

/-- `iter->Next()` and, if it is still valid, `use` with its key; else the loop is left to `exit`.
`DBIter::Next` asserts that it is valid and may do anything without the assertion, of which the
model has the mildest outcome: an exhausted iterator stays exhausted. -/
def nextKey (p : Program) (l : Lane) (exit : Pc) (use : Slice → Lane → Option Lane) :
    Option Lane :=
  let iter := Iterator.next l.iter
  if p.assertions && !Iterator.valid l.iter then none
  else if Iterator.valid iter then use (Iterator.key iter) { l with iter }
  else some { l with iter, pc := exit }

/-- One step of worker `q`. A poll observes the tail `t`. -/
def step (p : Program) (q t : Nat) (l : Lane) : Option Lane :=
  match l.pc with
  | .poll =>
      if l.seen ≤ t ∧ t ≤ p.content.length then
        some { l with seen := t, pc := if t ≤ l.seq then .poll else .check }
      else none
  | .check =>
      if (p.slot l.seq).seq = -1 then some { l with pc := .exited }
      else some { l with request := p.slot l.seq, pc := .seek }
  | .seek =>
      let iter := Iterator.seek (Cursor.start (p.db q)) (startKey l.request)
      some { l with iter, pc := if Iterator.valid iter then .first else .advance }
  | .first =>
      -- the string `str` lives until the worker leaves the block of this request
      (l.buffer.store 0 ⟨Iterator.key l.iter, true⟩).map fun buffer =>
        { l with buffer, pc := .fill 1 1 }
  | .fill i size =>
      if (i : Int) < l.request.scanSize then
        -- the string `str2` is destroyed at the end of the iteration
        l.nextKey p .publish fun key l =>
          (l.buffer.store size ⟨key, false⟩).map fun buffer =>
            { l with buffer, pc := .fill (i + 1) (size + 1) }
      else some { l with pc := .publish }
  | .publish =>
      some { l with status := .mergeStart, published := l.published + 1, pc := .waitOver }
  | .waitOver => some { l with pc := if l.status = .scanOver then .clear else .checkNeed }
  | .checkNeed => some { l with pc := if l.status = .needIter then .refill 0 else .waitOver }
  | .refill i =>
      if (i : Int) < l.request.scanSize then
        -- the slice is made of a temporary string
        l.nextKey p .iterOver fun key l =>
          some { l with buffer := l.buffer.pushBack ⟨key, false⟩, pc := .refill (i + 1) }
      else some { l with pc := .iterOver }
  | .iterOver => some { l with status := .iterOver, pc := .waitOver }
  | .clear => some { l with buffer := l.buffer.clear.map .expire, pc := .advance }
  | .advance => some { l with seq := l.seq + 1, pc := .poll }
  | .exited => none

end Lane

/-- The program points of `merge_thread`. In `find i best caller` the loop of `FindSmallest` is at
`i`, with `smallest` and `smallest_key` in `best`; the caller is the constructor, or `Next()` in the
given iteration of the loop over the advances. In the other points `i` is the loop variable of the
source. -/
inductive MergePc where
  | waitStart (i : Nat)
  | find (i : Nat) (best : Option (Nat × KeyRef)) (caller : Option Nat)
  | advance (i : Nat)
  | needIter (i : Nat)
  | waitIter (i : Nat)
  | retry (i : Nat)
  | release (i : Nat)
  | done
  | aborted
  deriving DecidableEq, Repr

/-- The merge thread: `seq`, the fields of its `vector_merge_iter`, and the history variable
`stood`, what `key()` gives after the construction and after each advance of the current round, as
it reads at that moment. -/
structure Merge where
  pc : MergePc
  seq : Nat
  now : Nat → Nat
  current : Nat
  stood : List (Option Slice)

namespace Merge

/-- The head of the loop over the rounds. -/
def roundHead (p : Program) (seq : Nat) : MergePc :=
  if seq < p.readNum then .waitStart 0 else .done

/-- The merge thread at the start. -/
def start (p : Program) : Merge :=
  ⟨roundHead p 0, 0, fun _ => 0, 0, []⟩

/-- `new vector_merge_iter()`, up to its `FindSmallest()`. -/
def construct (m : Merge) : Merge :=
  { m with pc := .find 0 none none, now := fun _ => 0, current := 0, stood := [] }

/-- One iteration of `FindSmallest()`: the key of buffer `i` replaces a greater one. The comparator
reads both slices, where `read q` gives the bytes of a slice of queue `q`. -/
def improve {α : Type} (read : Nat → α → Slice) (best : Option (Nat × α)) (i : Nat) (key : α) :
    Nat × α :=
  match best with
  | none => (i, key)
  | some (smallest, smallestKey) =>
      if bytewiseComparator.compare (read i key) (read smallest smallestKey) < 0 then (i, key)
      else (smallest, smallestKey)

/-- The best buffer is one of those looked at. -/
theorem improve_lt {α : Type} {read : Nat → α → Slice} {best : Option (Nat × α)} {i n : Nat}
    (hi : i < n) (hbest : ∀ b, best = some b → b.1 < n) (key : α) :
    (improve read best i key).1 < n := by
  cases best with
  | none => exact hi
  | some old =>
      simp only [improve]
      split_ifs
      · exact hi
      · exact hbest old rfl

/-- `vector_merge_iter::key()`. -/
def key (buffer : Nat → Vec KeyRef) (m : Merge) : Option KeyRef :=
  (buffer m.current).at? (m.now m.current)

/-- `vector_merge_iter::Next()` in iteration `i` of the loop over the advances; `failed` is the
point reached when it returns false. -/
def next (buffer : Nat → Vec KeyRef) (failed : MergePc) (i : Nat) (m : Merge) : Merge :=
  if (buffer m.current).size ≤ m.now m.current + 1 then { m with pc := failed }
  else { m with
    now := Function.update m.now m.current (m.now m.current + 1)
    pc := .find 0 none (some i) }

/-- One step of the merge thread over the flags and buffers, where a dangling slice of queue `q`
reads as `junk q`: its next state and the flag it stores, if any. -/
def step (p : Program) (junk : Nat → Slice) (status : Nat → ScanStatus) (buffer : Nat → Vec KeyRef)
    (m : Merge) : Option (Merge × Option (Nat × ScanStatus)) :=
  match m.pc with
  | .waitStart i =>
      if status i = .mergeStart then
        some (if i + 1 < p.queueNum then { m with pc := .waitStart (i + 1) } else m.construct, none)
      else some (m, none)
  | .find i best caller =>
      if i < p.queueNum then
        ((buffer i).get (m.now i)).map fun key =>
          let found := improve (fun q => KeyRef.read (junk q)) best i key
          ({ m with pc := .find (i + 1) (some found) caller }, none)
      else
        best.map fun found =>
          let m := { m with current := found.1 }
          ({ m with
            stood := m.stood ++ [(m.key buffer).map (KeyRef.read (junk m.current))]
            pc := .advance (caller.elim 1 (· + 1)) }, none)
  | .advance i =>
      some (if i < 100 then m.next buffer (.needIter i) i else { m with pc := .release 0 }, none)
  | .needIter i => some ({ m with pc := .waitIter i }, some (m.current, .needIter))
  | .waitIter i =>
      some (if status m.current = .iterOver then { m with pc := .retry i } else m, none)
  | .retry i => some (m.next buffer .aborted i, none)
  | .release i =>
      some (if i + 1 < p.queueNum then { m with pc := .release (i + 1) }
        else { m with seq := m.seq + 1, pc := roundHead p (m.seq + 1) }, some (i, .scanOver))
  | .done => none
  | .aborted => none

end Merge

/-- All lanes and the merge thread. -/
structure State where
  lanes : Nat → Lane
  merge : Merge

/-- A step of worker `q` that observes the tail `t` if it polls, or a step of the merge thread in
which a dangling slice of queue `q` reads as `junk q`. -/
inductive Action where
  | work (q t : Nat)
  | merge (junk : Nat → Slice)

/-- Store a flag. -/
def setStatus (lanes : Nat → Lane) : Option (Nat × ScanStatus) → Nat → Lane
  | none => lanes
  | some (q, status) => Function.update lanes q { lanes q with status := status }

/-- Storing a flag changes nothing else. -/
theorem setStatus_eq (lanes : Nat → Lane) (store : Option (Nat × ScanStatus)) (q : Nat) :
    ∃ status, setStatus lanes store q = { lanes q with status := status } := by
  cases store with
  | none => exact ⟨_, rfl⟩
  | some stored =>
      by_cases heq : q = stored.1
      · subst heq
        exact ⟨stored.2, Function.update_self _ _ _⟩
      · exact ⟨_, Function.update_of_ne heq _ _⟩

/-- One step of the program. A failed assertion stops all threads. -/
def step (p : Program) (s : State) : Action → Option State
  | .work q t =>
      if q < p.queueNum ∧ s.merge.pc ≠ .aborted then
        ((s.lanes q).step p q t).map fun l => { s with lanes := Function.update s.lanes q l }
      else none
  | .merge junk =>
      (s.merge.step p junk (fun q => (s.lanes q).status) (fun q => (s.lanes q).buffer)).map
        fun (m, store) => ⟨setStatus s.lanes store, m⟩

/-- The program with its workers and its merge thread. -/
def system (p : Program) : System State Action where
  init := ⟨fun q => .start (p.db q), .start p⟩
  step := step p

/-- A loop over `iter->Next()` with loop variable `i` ends and leaves the iterator at `iter`: the
iterator is exhausted, or the loop has made its `scan_size` iterations. -/
def Lane.Exhausts (l : Lane) (i : Nat) (iter : Cursor Slice Slice) : Prop :=
  (i : Int) < l.request.scanSize ∧ Iterator.valid (Iterator.next l.iter) = false ∧
      iter = Iterator.next l.iter ∨
    l.request.scanSize ≤ i ∧ iter = l.iter

/-- What a step of worker `q` can do. -/
inductive Lane.Move (p : Program) (q : Nat) (l : Lane) : Lane → Prop where
  | poll (t : Nat) (pc : Pc) : l.pc = .poll → pc = .poll ∨ pc = .check →
      Move p q l { l with seen := t, pc := pc }
  | finish : l.pc = .check → (p.slot l.seq).seq = -1 → Move p q l { l with pc := .exited }
  | take : l.pc = .check → (p.slot l.seq).seq ≠ -1 →
      Move p q l { l with request := p.slot l.seq, pc := .seek }
  | seek (iter : Cursor Slice Slice) : l.pc = .seek →
      iter = Iterator.seek (Cursor.start (p.db q)) (startKey l.request) →
      Move p q l { l with iter := iter, pc := if Iterator.valid iter then .first else .advance }
  | first (buffer : Vec KeyRef) : l.pc = .first →
      l.buffer.store 0 ⟨Iterator.key l.iter, true⟩ = some buffer →
      Move p q l { l with buffer := buffer, pc := .fill 1 1 }
  | fill (i size : Nat) (buffer : Vec KeyRef) : l.pc = .fill i size →
      (i : Int) < l.request.scanSize → Iterator.valid (Iterator.next l.iter) = true →
      l.buffer.store size ⟨Iterator.key (Iterator.next l.iter), false⟩ = some buffer →
      Move p q l { l with
        iter := Iterator.next l.iter, buffer := buffer, pc := .fill (i + 1) (size + 1) }
  | filled (i size : Nat) (iter : Cursor Slice Slice) : l.pc = .fill i size → l.Exhausts i iter →
      Move p q l { l with iter := iter, pc := .publish }
  | publish : l.pc = .publish →
      Move p q l { l with status := .mergeStart, published := l.published + 1, pc := .waitOver }
  | released : l.pc = .waitOver → l.status = .scanOver → Move p q l { l with pc := .clear }
  | notOver : l.pc = .waitOver → l.status ≠ .scanOver → Move p q l { l with pc := .checkNeed }
  | needed : l.pc = .checkNeed → l.status = .needIter → Move p q l { l with pc := .refill 0 }
  | notNeeded : l.pc = .checkNeed → l.status ≠ .needIter → Move p q l { l with pc := .waitOver }
  | refill (i : Nat) : l.pc = .refill i → (i : Int) < l.request.scanSize →
      Iterator.valid (Iterator.next l.iter) = true →
      Move p q l { l with
        iter := Iterator.next l.iter
        buffer := l.buffer.pushBack ⟨Iterator.key (Iterator.next l.iter), false⟩
        pc := .refill (i + 1) }
  | refilled (i : Nat) (iter : Cursor Slice Slice) : l.pc = .refill i → l.Exhausts i iter →
      Move p q l { l with iter := iter, pc := .iterOver }
  | iterOver : l.pc = .iterOver → Move p q l { l with status := .iterOver, pc := .waitOver }
  | clear : l.pc = .clear →
      Move p q l { l with buffer := l.buffer.clear.map .expire, pc := .advance }
  | advance : l.pc = .advance → Move p q l { l with seq := l.seq + 1, pc := .poll }

/-- Every step of a worker is one of the moves. -/
theorem Lane.move_of_step {p : Program} {q t : Nat} {l l' : Lane} (h : l.step p q t = some l') :
    l.Move p q l' := by
  unfold Lane.step at h
  cases hpc : l.pc with
  | poll =>
      simp only [hpc] at h
      split_ifs at h
      · cases h
        exact .poll t _ hpc (.inl rfl)
      · cases h
        exact .poll t _ hpc (.inr rfl)
  | check =>
      simp only [hpc] at h
      split_ifs at h with hseq
      · cases h
        exact .finish hpc hseq
      · cases h
        exact .take hpc hseq
  | seek =>
      simp only [hpc, Option.some.injEq] at h
      exact h ▸ .seek _ hpc rfl
  | first =>
      simp only [hpc, Option.map_eq_some_iff] at h
      obtain ⟨buffer, hbuffer, rfl⟩ := h
      exact .first buffer hpc hbuffer
  | fill i size =>
      simp only [hpc, nextKey] at h
      split_ifs at h with hi _ hvalid
      · simp only [Option.map_eq_some_iff] at h
        obtain ⟨buffer, hbuffer, rfl⟩ := h
        exact .fill i size buffer hpc hi hvalid hbuffer
      · cases h
        exact .filled i size _ hpc (.inl ⟨hi, by simpa using hvalid, rfl⟩)
      · cases h
        exact .filled i size l.iter hpc (.inr ⟨by omega, rfl⟩)
  | publish =>
      simp only [hpc, Option.some.injEq] at h
      exact h ▸ .publish hpc
  | waitOver =>
      simp only [hpc, Option.some.injEq] at h
      split_ifs at h with hstatus
      · exact h ▸ .released hpc hstatus
      · exact h ▸ .notOver hpc hstatus
  | checkNeed =>
      simp only [hpc, Option.some.injEq] at h
      split_ifs at h with hstatus
      · exact h ▸ .needed hpc hstatus
      · exact h ▸ .notNeeded hpc hstatus
  | refill i =>
      simp only [hpc, nextKey] at h
      split_ifs at h with hi _ hvalid
      · cases h
        exact .refill i hpc hi hvalid
      · cases h
        exact .refilled i _ hpc (.inl ⟨hi, by simpa using hvalid, rfl⟩)
      · cases h
        exact .refilled i l.iter hpc (.inr ⟨by omega, rfl⟩)
  | iterOver =>
      simp only [hpc, Option.some.injEq] at h
      exact h ▸ .iterOver hpc
  | clear =>
      simp only [hpc, Option.some.injEq] at h
      exact h ▸ .clear hpc
  | advance =>
      simp only [hpc, Option.some.injEq] at h
      exact h ▸ .advance hpc
  | exited =>
      simp only [hpc] at h
      cases h

/-- What a step of the merge thread can do, and the flag it stores. -/
inductive Merge.Move (p : Program) (status : Nat → ScanStatus) (buffer : Nat → Vec KeyRef)
    (m : Merge) : Merge → Option (Nat × ScanStatus) → Prop where
  | idle : (∃ i, m.pc = .waitStart i) ∨ (∃ i, m.pc = .waitIter i) → Move p status buffer m m none
  | started (i : Nat) : m.pc = .waitStart i → status i = .mergeStart → i + 1 < p.queueNum →
      Move p status buffer m { m with pc := .waitStart (i + 1) } none
  | construct (i : Nat) : m.pc = .waitStart i → status i = .mergeStart → p.queueNum ≤ i + 1 →
      Move p status buffer m m.construct none
  | read (i : Nat) (best : Option (Nat × KeyRef)) (caller : Option Nat) (key : KeyRef)
      (read : Nat → KeyRef → Slice) :
      m.pc = .find i best caller → i < p.queueNum → (buffer i).get (m.now i) = some key →
      Move p status buffer m
        { m with pc := .find (i + 1) (some (improve read best i key)) caller } none
  | found (i : Nat) (best : Nat × KeyRef) (caller : Option Nat) (junk : Slice) :
      m.pc = .find i (some best) caller → p.queueNum ≤ i →
      Move p status buffer m { m with
        current := best.1
        stood := m.stood ++ [((buffer best.1).at? (m.now best.1)).map (KeyRef.read junk)]
        pc := .advance (caller.elim 1 (· + 1)) } none
  | next (i : Nat) : m.pc = .advance i ∨ m.pc = .retry i →
      m.now m.current + 1 < (buffer m.current).size →
      Move p status buffer m { m with
        now := Function.update m.now m.current (m.now m.current + 1)
        pc := .find 0 none (some i) } none
  | short (i : Nat) : m.pc = .advance i → (buffer m.current).size ≤ m.now m.current + 1 →
      Move p status buffer m { m with pc := .needIter i } none
  | finished (i : Nat) : m.pc = .advance i → 100 ≤ i →
      Move p status buffer m { m with pc := .release 0 } none
  | need (i : Nat) : m.pc = .needIter i →
      Move p status buffer m { m with pc := .waitIter i } (some (m.current, .needIter))
  | served (i : Nat) : m.pc = .waitIter i → status m.current = .iterOver →
      Move p status buffer m { m with pc := .retry i } none
  | abort (i : Nat) : m.pc = .retry i → (buffer m.current).size ≤ m.now m.current + 1 →
      Move p status buffer m { m with pc := .aborted } none
  | release (i : Nat) : m.pc = .release i → i + 1 < p.queueNum →
      Move p status buffer m { m with pc := .release (i + 1) } (some (i, .scanOver))
  | roundOver (i : Nat) : m.pc = .release i → p.queueNum ≤ i + 1 →
      Move p status buffer m { m with seq := m.seq + 1, pc := roundHead p (m.seq + 1) }
        (some (i, .scanOver))

/-- Every step of the merge thread is one of the moves. -/
theorem Merge.move_of_step {p : Program} {junk : Nat → Slice} {status : Nat → ScanStatus}
    {buffer : Nat → Vec KeyRef} {m m' : Merge} {store : Option (Nat × ScanStatus)}
    (h : m.step p junk status buffer = some (m', store)) : m.Move p status buffer m' store := by
  unfold Merge.step at h
  cases hpc : m.pc with
  | waitStart i =>
      simp only [hpc] at h
      split_ifs at h with hstatus hi
      · cases h
        exact .started i hpc hstatus hi
      · cases h
        exact .construct i hpc hstatus (by omega)
      · cases h
        exact .idle (.inl ⟨i, hpc⟩)
  | find i best caller =>
      simp only [hpc] at h
      split_ifs at h with hi
      · simp only [Option.map_eq_some_iff] at h
        obtain ⟨key, hkey, heq⟩ := h
        cases heq
        exact .read i best caller key _ hpc hi hkey
      · simp only [Option.map_eq_some_iff] at h
        obtain ⟨found, rfl, heq⟩ := h
        cases heq
        exact .found i found caller _ hpc (by omega)
  | advance i =>
      simp only [hpc, next, Option.some.injEq, Prod.mk.injEq] at h
      obtain ⟨h, rfl⟩ := h
      split_ifs at h with hi hsize
      · exact h ▸ .short i hpc hsize
      · exact h ▸ .next i (.inl hpc) (by omega)
      · exact h ▸ .finished i hpc (by omega)
  | needIter i =>
      simp only [hpc, Option.some.injEq, Prod.mk.injEq] at h
      obtain ⟨rfl, rfl⟩ := h
      exact .need i hpc
  | waitIter i =>
      simp only [hpc, Option.some.injEq, Prod.mk.injEq] at h
      obtain ⟨h, rfl⟩ := h
      split_ifs at h with hstatus
      · exact h ▸ .served i hpc hstatus
      · exact h ▸ .idle (.inr ⟨i, hpc⟩)
  | retry i =>
      simp only [hpc, next, Option.some.injEq, Prod.mk.injEq] at h
      obtain ⟨h, rfl⟩ := h
      split_ifs at h with hsize
      · exact h ▸ .abort i hpc hsize
      · exact h ▸ .next i (.inr hpc) (by omega)
  | release i =>
      simp only [hpc, Option.some.injEq, Prod.mk.injEq] at h
      obtain ⟨h, rfl⟩ := h
      split_ifs at h with hi
      · exact h ▸ .release i hpc hi
      · exact h ▸ .roundOver i hpc (by omega)
  | done =>
      simp only [hpc] at h
      cases h
  | aborted =>
      simp only [hpc] at h
      cases h

/-- What a step of the program can do: a worker moves in its own lane, or the merge thread moves and
stores at most one flag. -/
theorem step_cases {p : Program} {s t : State} {a : Action} (h : step p s a = some t) :
    (∃ q tail l, a = .work q tail ∧ q < p.queueNum ∧ (s.lanes q).Move p q l ∧
      t = { s with lanes := Function.update s.lanes q l }) ∨
    (∃ junk m store, a = .merge junk ∧
      s.merge.Move p (fun q => (s.lanes q).status) (fun q => (s.lanes q).buffer) m store ∧
      t = ⟨setStatus s.lanes store, m⟩) := by
  cases a with
  | work q tail =>
      simp only [step] at h
      split_ifs at h with hq
      simp only [Option.map_eq_some_iff] at h
      obtain ⟨l, hl, rfl⟩ := h
      exact .inl ⟨q, tail, l, rfl, hq.1, Lane.move_of_step hl, rfl⟩
  | merge junk =>
      simp only [step, Option.map_eq_some_iff] at h
      obtain ⟨⟨m, store⟩, hm, rfl⟩ := h
      exact .inr ⟨junk, m, store, rfl, Merge.move_of_step hm, rfl⟩

end P2KVS.ScanTest
