import Mathlib.Logic.Function.Basic
import Mathlib.Data.List.GetD
import Mathlib.Data.List.Nodup
import P2KVS.Foundation.Transition

/-!
# Single-producer single-consumer rows and their consumers

A producer executes a list of enqueues over rows of slots that lie one after the other in one
flat array, as a two-dimensional array does. Each enqueue takes two steps: the stores to the slot
at the row's tail, then the increment of the tail. Each row has one consumer, an arbitrary machine
that sees its row and its tail.

`Consumer` carries the law that makes interleavings harmless: a step that is enabled under one
view of the row stays enabled, with the same result, under any later view. `worker_reachable` then
reduces a consumer inside the interleaved system to the same consumer running alone on the final
content of its row, provided the content of every row fits it. `extend` adds a field to the slots
that no step accesses.
-/

namespace P2KVS.Channel

open Transition

/-- One enqueue of the producer: the row it goes to and the stores it makes to the slot. -/
structure Enqueue (α : Type*) where
  queue : Nat
  fill : α → α

/-- The same enqueue into each of `n` rows. -/
def broadcast {α : Type*} (n : Nat) (fill : α → α) : List (Enqueue α) :=
  (List.range n).map fun i => ⟨i, fill⟩

/-- A broadcast goes to existing rows. -/
theorem broadcast_routed {α : Type*} {n : Nat} {fill : α → α} :
    ∀ e ∈ broadcast n fill, e.queue < n := by
  intro e he
  obtain ⟨i, hi, rfl⟩ := List.mem_map.mp he
  exact List.mem_range.mp hi

/-- A broadcast reaches each row once. -/
theorem filter_broadcast {α : Type*} {n q : Nat} (fill : α → α) (hq : q < n) :
    (broadcast n fill).filter (fun e => e.queue = q) = [⟨q, fill⟩] := by
  have hrange : (List.range n).filter (fun i => i = q) = [q] := by
    rw [List.filter_eq, List.count_eq_one_of_mem List.nodup_range (List.mem_range.mpr hq)]
    rfl
  rw [broadcast, List.filter_map]
  exact congrArg (List.map _) hrange

/-- An observation of the tail yields a value between the last one seen and the current one. -/
theorem observe_eq_some {W : Type*} {seen t tail : Nat} {w w' : W} :
    (if seen ≤ t ∧ t ≤ tail then some w else none) = some w' ↔
      seen ≤ t ∧ t ≤ tail ∧ w' = w := by
  rw [Option.ite_none_right_eq_some, Option.some_inj, and_assoc, eq_comm]

/-- An observation stays possible when the tail moves on. -/
theorem observe_later {W : Type*} {seen t tail later : Nat} {w w' : W} (hle : tail ≤ later)
    (h : (if seen ≤ t ∧ t ≤ tail then some w else none) = some w') :
    (if seen ≤ t ∧ t ≤ later then some w else none) = some w' := by
  obtain ⟨hseen, htail, heq⟩ := observe_eq_some.mp h
  exact observe_eq_some.mpr ⟨hseen, Nat.le_trans htail hle, heq⟩

/-- A consumer of one row. `step slots tail choice w` is one step of the machine `w`, where
`choice` resolves what the environment decides. `Synced tail w` says that `w` relies on no tail
value above `tail`. -/
structure Consumer (α W C : Type*) where
  step : (Nat → α) → Nat → C → W → Option W
  Synced : Nat → W → Prop
  synced_mono : ∀ {tail later : Nat} {w : W}, tail ≤ later → Synced tail w → Synced later w
  synced_step : ∀ {slots : Nat → α} {tail : Nat} {c : C} {w w' : W},
    Synced tail w → step slots tail c w = some w' → Synced tail w'
  step_later : ∀ {slots slots' : Nat → α} {tail later : Nat} {c : C} {w w' : W},
    Synced tail w → (∀ i < tail, slots i = slots' i) → tail ≤ later →
    step slots tail c w = some w' → step slots' later c w = some w'

namespace Consumer

variable {α W C : Type*} (k : Consumer α W C)

/-- The consumer running alone on a row and a tail that do not change. -/
def alone (start : W) (slots : Nat → α) (tail : Nat) : System W C where
  init := start
  step := fun w c => k.step slots tail c w

/-- The consumer over larger slots, of which it reads only the part `f`. -/
def comap {β : Type*} (f : β → α) : Consumer β W C where
  step := fun slots => k.step fun i => f (slots i)
  Synced := k.Synced
  synced_mono := k.synced_mono
  synced_step := k.synced_step
  step_later := fun hsync hslots => k.step_later hsync fun i hi => congrArg f (hslots i hi)

variable {k} {start w : W} {slots slots' : Nat → α} {tail later : Nat} {good : W → C → Prop}

/-- A consumer that runs alone relies on no tail value above its own. -/
theorem synced_alone (hstart : k.Synced tail start)
    (h : (k.alone start slots tail).Reachable good w) : k.Synced tail w :=
  h.invariant (I := k.Synced tail) hstart fun _ hsync _ hstep => k.synced_step hsync hstep

/-- What a consumer reaches on one view of its row it also reaches on every later one, whatever the
producer is going to store behind the tail. -/
theorem reachable_later (hstart : k.Synced tail start) (hslots : ∀ i < tail, slots i = slots' i)
    (hle : tail ≤ later) (h : (k.alone start slots tail).Reachable good w) :
    (k.alone start slots' later).Reachable good w := by
  induction h with
  | init => exact .init
  | step hs hgood hstep ih =>
      exact .step ih hgood (k.step_later (synced_alone hstart hs) hslots hle hstep)

end Consumer

/-- A producer program over `queueNum` rows of `row` slots, with one consumer a row. -/
structure Pipeline (α W C : Type*) where
  queueNum : Nat
  row : Nat
  blank : α
  program : List (Enqueue α)
  consumer : Nat → Consumer α W C
  start : Nat → W
  routed : ∀ e ∈ program, e.queue < queueNum
  start_synced : ∀ q, (consumer q).Synced 0 (start q)

/-- The shared array, the tails, the enqueues still to do, whether the slot of the first of them
is already filled, and the consumers. -/
structure State (α W : Type*) where
  slots : Nat → α
  tail : Nat → Nat
  todo : List (Enqueue α)
  filled : Bool
  workers : Nat → W

/-- A step of the producer, or a step of one consumer under one resolution of its choices. -/
inductive Action (C : Type*) where
  | dispatch
  | work (queue : Nat) (choice : C)

/-- The flat position of slot `i` of row `q`. -/
def address (row q i : Nat) : Nat :=
  q * row + i

/-- Slots within their rows do not overlap. -/
theorem address_inj {row q r i j : Nat} (hi : i < row) (hj : j < row)
    (h : address row q i = address row r j) : q = r ∧ i = j := by
  have hpos : 0 < row := by omega
  simp only [address] at h
  have hdiv : ∀ a b, b < row → (a * row + b) / row = a := by
    intro a b hb
    rw [Nat.mul_comm, Nat.mul_add_div hpos, Nat.div_eq_of_lt hb, Nat.add_zero]
  have hq : q = r := by rw [← hdiv q i hi, h, hdiv r j hj]
  subst hq
  exact ⟨rfl, by omega⟩

namespace Pipeline

variable {α W C : Type*} (p : Pipeline α W C)

/-- The initial state: blank slots, empty rows, the whole program to do. -/
def initial : State α W where
  slots := fun _ => p.blank
  tail := fun _ => 0
  todo := p.program
  filled := false
  workers := p.start

/-- The row of queue `q` as its consumer indexes it. -/
def rowView (s : State α W) (q : Nat) : Nat → α :=
  fun i => s.slots (address p.row q i)

/-- Increment the tail of the row that `e` has filled. -/
def publish (s : State α W) (e : Enqueue α) (rest : List (Enqueue α)) : State α W :=
  { s with
    tail := Function.update s.tail e.queue (s.tail e.queue + 1)
    todo := rest
    filled := false }

/-- Make the stores of `e` to the slot at the tail of its row. -/
def fillSlot (s : State α W) (e : Enqueue α) : State α W :=
  let slot := address p.row e.queue (s.tail e.queue)
  { s with
    slots := Function.update s.slots slot (e.fill (s.slots slot))
    filled := true }

/-- One step of the producer: fill the slot at the tail, or publish the filled slot. -/
def dispatch (s : State α W) : Option (State α W) :=
  match s.todo with
  | [] => none
  | e :: rest => some (if s.filled then publish s e rest else p.fillSlot s e)

/-- One step of the interleaved system. -/
def step (s : State α W) : Action C → Option (State α W)
  | .dispatch => p.dispatch s
  | .work q c =>
      if q < p.queueNum then
        ((p.consumer q).step (p.rowView s q) (s.tail q) c (s.workers q)).map fun w =>
          { s with workers := Function.update s.workers q w }
      else none

/-- A condition on the steps of the consumers, as a condition on the steps of the system. -/
def onWork (good : Nat → W → C → Prop) (s : State α W) : Action C → Prop
  | .dispatch => True
  | .work q c => good q (s.workers q) c

/-- The condition is decidable when it is for each consumer. -/
instance decidableOnWork (good : Nat → W → C → Prop) [∀ q w c, Decidable (good q w c)]
    (s : State α W) : (a : Action C) → Decidable (onWork good s a)
  | .dispatch => inferInstanceAs (Decidable True)
  | .work q c => inferInstanceAs (Decidable (good q (s.workers q) c))

/-- The interleaved system of the producer and all consumers. -/
def system : System (State α W) (Action C) where
  init := p.initial
  step := p.step

/-- What the program enqueues into row `q`, in order. -/
def content (q : Nat) : List α :=
  (p.program.filter fun e => e.queue = q).map fun e => e.fill p.blank

/-- The final row of queue `q`, with blank slots behind its content. -/
def view (q : Nat) : Nat → α :=
  fun i => (p.content q).getD i p.blank

variable {p} in
/-- A program that ends by broadcasting a marker leaves it at the end of every row. -/
theorem content_of_broadcast {es : List (Enqueue α)} {fill : α → α}
    (hprogram : p.program = es ++ broadcast p.queueNum fill) {q : Nat} (hq : q < p.queueNum) :
    p.content q =
      ((es.filter fun e => e.queue = q).map fun e => e.fill p.blank) ++ [fill p.blank] := by
  rw [content, hprogram, List.filter_append, List.map_append, filter_broadcast fill hq]
  rfl

/-- The content of every row fits it. -/
def Fits : Prop :=
  ∀ q < p.queueNum, (p.content q).length ≤ p.row

/-- Whether the rows are long enough can be computed. -/
instance decidableFits : Decidable p.Fits :=
  inferInstanceAs (Decidable (∀ q < p.queueNum, (p.content q).length ≤ p.row))

/-- The consumer of row `q` running alone: its row already holds its whole content, and it may
observe any tail up to the full length. -/
def isolated (q : Nat) : System W C where
  init := p.start q
  step := fun w c => (p.consumer q).step (p.view q) (p.content q).length c w

/-- What holds between the producer and the rows in every reachable state. -/
structure Delivered (s : State α W) : Prop where
  sent : ∃ done, p.program = done ++ s.todo ∧
    ∀ q, s.tail q = (done.filter fun e => e.queue = q).length
  published : ∀ q < p.queueNum, ∀ i < s.tail q, p.rowView s q i = p.view q i
  pending : ∀ e rest, s.todo = e :: rest → s.filled = true →
    p.rowView s e.queue (s.tail e.queue) = p.view e.queue (s.tail e.queue)
  blank : ∀ q < p.queueNum, ∀ i, s.tail q ≤ i → i < p.row →
    (s.filled = true → ∀ e rest, s.todo = e :: rest → (q, i) ≠ (e.queue, s.tail e.queue)) →
    p.rowView s q i = p.blank
  idle : s.todo = [] → s.filled = false

variable {p}

/-- The slot at the tail of the next enqueue lies inside the content of its row and holds what
that enqueue stores. -/
theorem Delivered.next {s : State α W} (h : p.Delivered s) {e : Enqueue α}
    {rest : List (Enqueue α)} (htodo : s.todo = e :: rest) :
    s.tail e.queue < (p.content e.queue).length ∧
      p.view e.queue (s.tail e.queue) = e.fill p.blank := by
  obtain ⟨done, hprogram, htail⟩ := h.sent
  have hcontent : p.content e.queue =
      (done.filter fun x => x.queue = e.queue).map (fun x => x.fill p.blank) ++
        e.fill p.blank ::
          (rest.filter fun x => x.queue = e.queue).map (fun x => x.fill p.blank) := by
    simp [content, hprogram, htodo]
  constructor
  · rw [hcontent, htail]
    simp
  · rw [view, hcontent, htail, List.getD_append_right _ _ _ _ (by simp)]
    simp

/-- A published tail never exceeds the length of the row's content. -/
theorem Delivered.tail_le {s : State α W} (h : p.Delivered s) (q : Nat) :
    s.tail q ≤ (p.content q).length := by
  obtain ⟨done, hprogram, htail⟩ := h.sent
  rw [htail q, content, hprogram]
  simp

/-- The initial state is delivered. -/
theorem delivered_initial : p.Delivered p.initial where
  sent := ⟨[], by simp [initial]⟩
  published := by simp [initial]
  pending := by simp [initial]
  blank := by simp [initial, rowView]
  idle := by simp [initial]

/-- The slot at the tail of the next enqueue lies inside its row. -/
theorem Delivered.next_in_row {s : State α W} (hfit : p.Fits) (h : p.Delivered s) {e : Enqueue α}
    {rest : List (Enqueue α)} (htodo : s.todo = e :: rest) :
    e.queue < p.queueNum ∧ s.tail e.queue < p.row := by
  obtain ⟨done, hprogram, _⟩ := h.sent
  have hroute : e.queue < p.queueNum := p.routed e (by simp [hprogram, htodo])
  exact ⟨hroute, Nat.lt_of_lt_of_le (h.next htodo).1 (hfit _ hroute)⟩

/-- Filling the slot at the tail changes no other slot of any row. -/
theorem Delivered.rowView_fillSlot {s : State α W} (hfit : p.Fits) (h : p.Delivered s)
    {e : Enqueue α} {rest : List (Enqueue α)} (htodo : s.todo = e :: rest) {q i : Nat}
    (hi : i < p.row) (hne : (q, i) ≠ (e.queue, s.tail e.queue)) :
    p.rowView (p.fillSlot s e) q i = p.rowView s q i := by
  refine Function.update_of_ne ?_ _ _
  intro heq
  obtain ⟨rfl, rfl⟩ := address_inj hi (h.next_in_row hfit htodo).2 heq
  exact hne rfl

/-- Filling the next slot keeps the rows delivered. -/
theorem Delivered.fill {s : State α W} (hfit : p.Fits) (h : p.Delivered s) {e : Enqueue α}
    {rest : List (Enqueue α)} (htodo : s.todo = e :: rest) (hfilled : s.filled = false) :
    p.Delivered (p.fillSlot s e) := by
  have hnot : s.filled ≠ true := by simp [hfilled]
  obtain ⟨hroute, hrow⟩ := h.next_in_row hfit htodo
  refine ⟨h.sent, ?_, ?_, ?_, by simp [fillSlot, htodo]⟩
  · intro q hqn i hi
    have hirow : i < p.row := Nat.lt_of_lt_of_le hi (Nat.le_trans (h.tail_le q) (hfit q hqn))
    have hne : (q, i) ≠ (e.queue, s.tail e.queue) := by
      intro heq
      cases heq
      exact Nat.lt_irrefl _ hi
    exact (h.rowView_fillSlot hfit htodo hirow hne).trans (h.published q hqn i hi)
  · intro e' rest' htodo' _
    obtain ⟨rfl, rfl⟩ := List.cons.inj (htodo.symm.trans htodo')
    -- the slot at the tail is still blank, so the stores leave what the view has there
    have hslot : s.slots (address p.row e.queue (s.tail e.queue)) = p.blank :=
      h.blank _ hroute _ (Nat.le_refl _) hrow (fun hf => absurd hf hnot)
    simp [rowView, fillSlot, hslot, (h.next htodo).2]
  · intro q hqn i hle hirow hne
    refine (h.rowView_fillSlot hfit htodo hirow (hne rfl e rest htodo)).trans ?_
    exact h.blank q hqn i hle hirow (fun hf => absurd hf hnot)

/-- Publishing the filled slot keeps the rows delivered. -/
theorem Delivered.publish {s : State α W} (h : p.Delivered s) {e : Enqueue α}
    {rest : List (Enqueue α)} (htodo : s.todo = e :: rest) (hfilled : s.filled = true) :
    p.Delivered (publish s e rest) := by
  obtain ⟨done, hprogram, htail⟩ := h.sent
  have hother : ∀ q, q ≠ e.queue → (Pipeline.publish s e rest).tail q = s.tail q :=
    fun q hq => Function.update_of_ne hq _ _
  have hself : (Pipeline.publish s e rest).tail e.queue = s.tail e.queue + 1 :=
    Function.update_self _ _ _
  refine ⟨⟨done ++ [e], by simp [hprogram, htodo, Pipeline.publish], ?_⟩, ?_,
    by simp [Pipeline.publish], ?_, by simp [Pipeline.publish]⟩
  · intro q
    by_cases hq : q = e.queue
    · subst hq
      simp [hself, htail]
    · simp [hother q hq, htail, Ne.symm hq]
  · intro q hqn i hi
    by_cases hq : q = e.queue
    · subst hq
      rw [hself] at hi
      rcases Nat.lt_succ_iff_lt_or_eq.mp hi with hlt | rfl
      · exact h.published _ hqn i hlt
      · exact h.pending e rest htodo hfilled
    · rw [hother q hq] at hi
      exact h.published q hqn i hi
  · intro q hqn i hle hirow _
    have hbound : s.tail q ≤ i ∧ (q, i) ≠ (e.queue, s.tail e.queue) := by
      by_cases hq : q = e.queue
      · subst hq
        rw [hself] at hle
        refine ⟨show s.tail e.queue ≤ i by omega, ?_⟩
        intro heq
        cases heq
        omega
      · rw [hother q hq] at hle
        exact ⟨hle, fun heq => hq (congrArg Prod.fst heq)⟩
    refine h.blank q hqn i hbound.1 hirow ?_
    intro _ e' rest' htodo'
    obtain ⟨rfl, rfl⟩ := List.cons.inj (htodo.symm.trans htodo')
    exact hbound.2

/-- What a step of the producer can do. -/
theorem dispatch_cases {s t : State α W} (h : p.dispatch s = some t) :
    ∃ e rest, s.todo = e :: rest ∧
      ((s.filled = true ∧ t = Pipeline.publish s e rest) ∨
        (s.filled = false ∧ t = p.fillSlot s e)) := by
  unfold Pipeline.dispatch at h
  cases htodo : s.todo with
  | nil => simp [htodo] at h
  | cons e rest =>
      simp only [htodo, Option.some.injEq] at h
      refine ⟨e, rest, rfl, ?_⟩
      cases hfilled : s.filled with
      | true => exact .inl ⟨rfl, by simpa [hfilled] using h.symm⟩
      | false => exact .inr ⟨rfl, by simpa [hfilled] using h.symm⟩

/-- The producer's step keeps the rows delivered, leaves the consumers alone and takes no tail
back. -/
theorem Delivered.dispatch {s t : State α W} (hfit : p.Fits) (h : p.Delivered s)
    (hstep : p.dispatch s = some t) :
    p.Delivered t ∧ t.workers = s.workers ∧ ∀ q, s.tail q ≤ t.tail q := by
  obtain ⟨e, rest, htodo, ⟨hfilled, rfl⟩ | ⟨hfilled, rfl⟩⟩ := dispatch_cases hstep
  · refine ⟨h.publish htodo hfilled, rfl, fun q => ?_⟩
    by_cases hq : q = e.queue
    · subst hq
      simp [Pipeline.publish]
    · simp [Pipeline.publish, Function.update_of_ne hq]
  · exact ⟨h.fill hfit htodo hfilled, rfl, fun q => Nat.le_refl _⟩

/-- What a step of consumer `r` can do. -/
theorem work_cases {s t : State α W} {r : Nat} {c : C} (h : p.step s (.work r c) = some t) :
    r < p.queueNum ∧ ∃ w, (p.consumer r).step (p.rowView s r) (s.tail r) c (s.workers r) = some w ∧
      t = { s with workers := Function.update s.workers r w } := by
  simp only [Pipeline.step] at h
  split at h
  · rename_i hr
    simp only [Option.map_eq_some_iff] at h
    obtain ⟨w, hw, rfl⟩ := h
    exact ⟨hr, w, hw, rfl⟩
  · cases h

/-- In every reachable state the rows are delivered and each consumer relies only on tails that
have been published. -/
theorem delivered_reachable (hfit : p.Fits) {allowed : State α W → Action C → Prop}
    {s : State α W} (h : p.system.Reachable allowed s) :
    p.Delivered s ∧ ∀ q < p.queueNum, (p.consumer q).Synced (s.tail q) (s.workers q) := by
  refine h.invariant
    (I := fun s => p.Delivered s ∧ ∀ q < p.queueNum, (p.consumer q).Synced (s.tail q) (s.workers q))
    ⟨delivered_initial, fun q _ => p.start_synced q⟩ ?_
  intro s a t _ hinv _ hstep
  obtain ⟨hdel, hsync⟩ := hinv
  cases a with
  | dispatch =>
      obtain ⟨hdel', hworkers, htail⟩ := hdel.dispatch hfit hstep
      refine ⟨hdel', fun q hq => ?_⟩
      rw [hworkers]
      exact (p.consumer q).synced_mono (htail q) (hsync q hq)
  | work r c =>
      obtain ⟨_, w, hw, rfl⟩ := work_cases hstep
      refine ⟨⟨hdel.sent, hdel.published, hdel.pending, hdel.blank, hdel.idle⟩, fun q hq => ?_⟩
      by_cases heq : q = r
      · subst heq
        simpa using (p.consumer q).synced_step (hsync q hq) hw
      · simpa [Function.update_of_ne heq] using hsync q hq

/-- A consumer inside the interleaved system takes only steps it can take alone on the final
content of its row. -/
theorem worker_reachable (hfit : p.Fits) {good : Nat → W → C → Prop} {s : State α W}
    (h : p.system.Reachable (onWork good) s) {q : Nat} (hq : q < p.queueNum) :
    (p.isolated q).Reachable (good q) (s.workers q) := by
  apply h.simulate (fun s => s.workers q)
  · rfl
  intro s a t hs hallowed hstep
  obtain ⟨hdel, hsync⟩ := delivered_reachable hfit hs
  cases a with
  | dispatch => exact .inl (congrFun (hdel.dispatch hfit hstep).2.1 q)
  | work r c =>
      obtain ⟨_, w, hw, rfl⟩ := work_cases hstep
      by_cases heq : q = r
      · subst heq
        right
        refine ⟨c, hallowed, ?_⟩
        simp only [Function.update_self]
        exact (p.consumer q).step_later (hsync q hq) (hdel.published q hq) (hdel.tail_le q) hw
      · left
        simp [Function.update_of_ne heq]

/-- In any run whatsoever a consumer takes only steps it can take alone. -/
theorem worker_reachable_free (hfit : p.Fits) {s : State α W}
    (h : p.system.Reachable (fun _ _ => True) s) {q : Nat} (hq : q < p.queueNum) :
    (p.isolated q).Reachable (fun _ _ => True) (s.workers q) := by
  have hwork : p.system.Reachable (onWork fun _ _ _ => True) s :=
    h.mono fun _ a _ => by cases a <;> trivial
  exact worker_reachable hfit hwork hq

section Extension

variable {ε : Type*} (field : ε)

/-- The program over slots with one more field, which is initially `field` and which neither the
producer nor the consumers access. -/
def extend (p : Pipeline α W C) : Pipeline (α × ε) W C where
  queueNum := p.queueNum
  row := p.row
  blank := (p.blank, field)
  program := p.program.map fun e => ⟨e.queue, Prod.map e.fill id⟩
  consumer := fun q => (p.consumer q).comap Prod.fst
  start := p.start
  routed := by
    intro e he
    obtain ⟨base, hbase, rfl⟩ := List.mem_map.mp he
    exact p.routed base hbase
  start_synced := p.start_synced

/-- The rows of the extended program hold the same requests. -/
theorem content_extend (q : Nat) :
    (p.extend field).content q = (p.content q).map fun a => (a, field) := by
  simp only [content, extend, List.filter_map, List.map_map]
  rfl

/-- The extended program needs the same room. -/
theorem fits_extend : (p.extend field).Fits ↔ p.Fits := by
  refine forall₂_congr fun q _ => ?_
  rw [content_extend, List.length_map]
  rfl

/-- A consumer that runs alone does not notice the extension. -/
theorem isolated_extend (q : Nat) : (p.extend field).isolated q = p.isolated q := by
  have hview : ∀ i, ((p.extend field).view q i).1 = p.view q i := by
    intro i
    rw [view, content_extend]
    exact congrArg Prod.fst (List.getD_map (p.content q) p.blank (fun a => (a, field)))
  have hlength : ((p.extend field).content q).length = (p.content q).length := by
    rw [content_extend, List.length_map]
  simp only [isolated, hlength]
  show System.mk _ (fun w c => (p.consumer q).step
    (fun i => ((p.extend field).view q i).1) _ c w) = _
  simp only [hview]
  rfl

/-- Every slot keeps the field it was created with. -/
theorem field_reachable {allowed : State (α × ε) W → Action C → Prop} {s : State (α × ε) W}
    (h : (p.extend field).system.Reachable allowed s) (a : Nat) : (s.slots a).2 = field := by
  have hinv : s.todo <:+ (p.extend field).program ∧ ∀ a, (s.slots a).2 = field := by
    refine h.invariant
      (I := fun s => s.todo <:+ (p.extend field).program ∧ ∀ a, (s.slots a).2 = field)
      ⟨List.suffix_rfl, fun _ => rfl⟩ ?_
    intro s action t _ hold _ hstep
    obtain ⟨hsuffix, hkept⟩ := hold
    cases action with
    | dispatch =>
        obtain ⟨e, rest, htodo, ⟨_, rfl⟩ | ⟨_, rfl⟩⟩ := dispatch_cases hstep
        · exact ⟨(htodo ▸ List.suffix_cons e rest : rest <:+ s.todo).trans hsuffix, hkept⟩
        · refine ⟨hsuffix, fun a => ?_⟩
          show (Function.update s.slots _ _ a).2 = field
          by_cases ha : a = address (p.extend field).row e.queue (s.tail e.queue)
          · -- the stores of an enqueue leave the field alone
            have hmem : e ∈ (p.extend field).program := hsuffix.subset (by simp [htodo])
            obtain ⟨base, _, rfl⟩ := List.mem_map.mp hmem
            rw [ha, Function.update_self]
            exact hkept _
          · rw [Function.update_of_ne ha]
            exact hkept a
    | work q c =>
        obtain ⟨_, w, _, rfl⟩ := work_cases hstep
        exact ⟨hsuffix, hkept⟩
  exact hinv.2 a

end Extension

end Pipeline

end P2KVS.Channel
