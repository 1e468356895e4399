import P2KVS.Foundation.Intrusive
import P2KVS.RocksDB.WriteThread

/-!
# The queue behind the write thread

The memory of the write thread seen as a queue. A `View` has the groups that have left the list, the
front group with the phase it is in, the writers behind it, and the position of a walk that creates
links. `Sim` says what each thread does in each of these places. It holds along every run; what the
write thread guarantees is read off it.
-/

namespace P2KVS.WriteThread

open Transition Intrusive

/-- What a group does that has left the list: its executor still has to release the first `rest`
members, it has to release the leader, or all are released. -/
inductive Leaving where
  | draining (rest : Nat)
  | releasing
  | finished
  deriving DecidableEq, Repr

/-- A group that has left the list. -/
structure Detached where
  members : List Nat
  executor : Nat
  leaving : Leaving
  deriving DecidableEq, Repr

/-- The phase of the front group: its leader has not closed it yet, it applies it alone, `told`
members have been told to insert, or a member performs the exit. -/
inductive Phase where
  | leading
  | serial
  | launched (told : Nat)
  | exiting (x : Nat)
  deriving DecidableEq, Repr

/-- The writers on the list: the front group, those behind it, and the position of a walk that
creates links. -/
structure Line where
  front : List Nat
  phase : Phase
  pending : List Nat
  gap : Option Nat

/-- The writers on the list, oldest first. -/
def Line.queue (v : Line) : List Nat :=
  v.front ++ v.pending

/-- The line and the groups that have left it. -/
structure View extends Line where
  left : List Detached

namespace View

/-- All writers that were ever linked. -/
def linked (v : View) : List Nat :=
  v.left.flatMap Detached.members ++ v.queue

/-- The groups that were closed. -/
def closed (v : View) : List (List Nat) :=
  v.left.map Detached.members ++ if v.phase = .leading then [] else [v.front]

end View

/-- The request of `w` does not keep it out of a group led by `g`. -/
structure Compatible (c : Config) (g w : Nat) : Prop where
  sync : (c.request w).sync = true → (c.request g).sync = true
  noSlowdown : (c.request w).noSlowdown = (c.request g).noSlowdown
  disableWal : (c.request w).disableWal = (c.request g).disableWal
  batch : (c.request w).batch ≠ none
  callback : ∀ cb, (c.request w).callback = some cb → cb.allowWriteBatching = true

/-- The bytes of the batches of some writers. -/
def bytes (c : Config) (ws : List Nat) : Nat :=
  (ws.map c.byteSize).sum

/-- The members of a group belong together: they are compatible with the leader, and a group of
several members keeps to its bound. -/
def Fits (c : Config) (group : List Nat) : Prop :=
  ∀ g rest, group = g :: rest → (∀ w ∈ rest, Compatible c g w) ∧
    (rest ≠ [] → bytes c group ≤ c.maxSize (c.byteSize g))

/-- A writer that is not linked yet. -/
def Unlinked (s : State) (w : Nat) : Prop :=
  s.linkNewer w = none ∧ s.state w = .init ∧
    (s.pc w = .idle ∨ s.pc w = .load ∨ ∃ writers, s.pc w = .link writers)

/-- A writer that waits and has not been told anything. -/
def Waiting (s : State) (w : Nat) : Prop :=
  s.pc w = .await ∧ s.state w = .init

/-- A writer behind the front group. -/
def Pending (c : Config) (s : State) (w : Nat) : Prop :=
  s.state w = .init ∧
    (s.pc w = .await ∧ (c.request w).batch ≠ none ∨
      s.pc w = .awaitAlone ∧ (c.request w).batch = none)

/-- A member that waits for its release. -/
def Held (s : State) (w : Nat) : Prop :=
  Waiting s w ∨ s.pc w = .awaitCompleted ∧ s.state w = .parallelMemtableWriter

/-- A member that has been released. -/
def Released (s : State) (w : Nat) : Prop :=
  s.pc w = .returned ∨ s.state w = .completed ∧ (s.pc w = .await ∨ s.pc w = .awaitCompleted)

/-- The places of a member that was told to insert its batch. -/
def Working (p : Pc) : Prop :=
  p = .insert ∨ p = .report ∨ p = .complete ∨ p = .awaitCompleted

/-- A walk over the links from position `e` has come down to `head`. -/
def Walk (s : State) (v : Line) (head e : Nat) : Prop :=
  e < v.queue.length ∧ ∃ h ≤ e, v.gap = some h ∧ v.queue[h]? = some head ∧
    ∀ i y, h ≤ i → i < e → v.queue[i]? = some y → s.linkNewer y ≠ none

/-- The leader has gathered the first `k + 1` writers of the list. -/
structure Gathered (c : Config) (s : State) (v : Line) (g k size : Nat) : Prop where
  last : v.queue[k]? = some (s.group g).lastWriter
  length : (s.group g).size = k + 1
  group : ∀ w ∈ v.queue.take (k + 1), s.writeGroup w = some g
  bytes : size = bytes c (v.queue.take (k + 1))
  fits : Fits c (v.queue.take (k + 1))

/-- The leader of the front group before it has closed the group. -/
def Leading (c : Config) (s : State) (v : Line) (g : Nat) : Prop :=
  match s.pc g with
  | .selfLead => v.gap = none ∧ s.state g = .init ∧ (c.request g).batch ≠ none
  | .await | .preprocess | .enter =>
      v.gap = none ∧ s.state g = .groupLeader ∧ (c.request g).batch ≠ none
  | .awaitAlone => v.gap = none ∧ s.state g = .groupLeader ∧ (c.request g).batch = none
  | .alone => v.gap = none ∧ (c.request g).batch = none
  | .createLinks head newest =>
      s.state g = .groupLeader ∧ Gathered c s v g 0 (c.byteSize g) ∧
        ∃ e, v.queue[e]? = some newest ∧ Walk s v head e
  | .gather w newest size =>
      v.gap = none ∧ s.state g = .groupLeader ∧ ∃ k e, Gathered c s v g k size ∧
        v.queue[k]? = some w ∧ v.queue[e]? = some newest ∧ k ≤ e ∧
        ∀ i y, i < e → v.queue[i]? = some y → s.linkNewer y ≠ none
  | _ => False

/-- The front group has been closed by `g`. -/
structure Closed (s : State) (v : Line) (g : Nat) : Prop where
  last : v.front.getLast? = some (s.group g).lastWriter
  size : (s.group g).size = v.front.length
  group : ∀ w ∈ v.front, s.writeGroup w = some g
  links : ∀ i y, i + 1 < v.front.length → v.front[i]? = some y → s.linkNewer y ≠ none

/-- The leader works for all members. -/
structure Serial (s : State) (v : Line) (g : Nat) : Prop where
  gap : v.gap = none
  closed : Closed s v g
  state : s.state g = .groupLeader
  pc : s.pc g = .apply ∨ s.pc g = .insertGroup
  waiting : ∀ w ∈ v.front, w ≠ g → Waiting s w

/-- The first `told` members insert their batches. -/
structure Launched (s : State) (v : Line) (g told : Nat) : Prop where
  gap : v.gap = none
  closed : Closed s v g
  first : told = 0 → s.state g = .groupLeader
  state : ∀ i w, i < told → v.front[i]? = some w → s.state w = .parallelMemtableWriter
  working : ∀ i w, i < told → v.front[i]? = some w → w ≠ g → s.pc w = .await ∨ Working (s.pc w)
  waiting : ∀ i w, told ≤ i → v.front[i]? = some w → w ≠ g → Waiting s w
  leader : (∃ w, v.front[told]? = some w ∧ s.pc g = .launch w) ∨
    told = v.front.length ∧ Working (s.pc g)
  running : (s.group g).running = v.front.countP fun w => s.pc w ≠ .awaitCompleted
  running_pos : 0 < (s.group g).running

/-- Where the member stands that performs the exit of the front group. -/
def Exit (s : State) (v : Line) (g x : Nat) : Prop :=
  match s.pc x with
  | .publish | .exitLoad => v.gap = none ∧ Closed s v g
  | .exitCas leader last => v.gap = none ∧ leader = g ∧ v.front.getLast? = some last
  | .exitLinks leader last head =>
      leader = g ∧ v.front.getLast? = some last ∧ ∃ e, v.front.length ≤ e ∧ Walk s v head e
  | .handoff leader last =>
      v.gap = none ∧ leader = g ∧ v.front.getLast? = some last ∧ v.pending ≠ [] ∧
        s.linkNewer last ≠ none
  | _ => False

/-- Member `x` performs the exit while the others wait for their release. -/
structure Exiting (s : State) (v : Line) (g x : Nat) : Prop where
  mem : x ∈ v.front
  held : ∀ w ∈ v.front, w ≠ x → Held s w
  follower : x ≠ g → s.state x = .parallelMemtableWriter ∧ s.pc g = .awaitCompleted
  exit : Exit s v g x

/-- The front group. -/
def Front (c : Config) (s : State) (v : Line) : Prop :=
  match v.front with
  | [] => v.pending = [] ∧ v.gap = none ∧ v.phase = .leading
  | g :: rest =>
      match v.phase with
      | .leading => rest = [] ∧ Leading c s v g
      | .serial => Serial s v g
      | .launched told => Launched s v g told
      | .exiting x => Exiting s v g x

section Front

variable {c : Config} {s : State} {v : Line} {g : Nat} {rest : List Nat}

/-- A front group that is not closed. -/
theorem Leading.front (hfront : v.front = [g]) (hphase : v.phase = .leading)
    (h : Leading c s v g) : Front c s v := by
  rcases v with ⟨front, phase, pending, gap⟩
  obtain rfl : front = [g] := hfront
  obtain rfl : phase = .leading := hphase
  exact ⟨rfl, h⟩

/-- A front group whose leader works for all. -/
theorem Serial.front (hfront : v.front = g :: rest) (hphase : v.phase = .serial)
    (h : Serial s v g) : Front c s v := by
  rcases v with ⟨front, phase, pending, gap⟩
  obtain rfl : front = g :: rest := hfront
  obtain rfl : phase = .serial := hphase
  exact h

/-- A front group whose members insert. -/
theorem Launched.front {told : Nat} (hfront : v.front = g :: rest)
    (hphase : v.phase = .launched told)
    (h : Launched s v g told) : Front c s v := by
  rcases v with ⟨front, phase, pending, gap⟩
  obtain rfl : front = g :: rest := hfront
  obtain rfl : phase = .launched told := hphase
  exact h

/-- A front group on its way out. -/
theorem Exiting.front {x : Nat} (hfront : v.front = g :: rest) (hphase : v.phase = .exiting x)
    (h : Exiting s v g x) : Front c s v := by
  rcases v with ⟨front, phase, pending, gap⟩
  obtain rfl : front = g :: rest := hfront
  obtain rfl : phase = .exiting x := hphase
  exact h

end Front

/-- The executor releases the members from the newest to the leader: the first `rest` are held and
their older links are intact. -/
structure Draining (s : State) (d : Detached) (g rest : Nat) : Prop where
  cur : ∃ w, 0 < rest ∧ d.members[rest - 1]? = some w ∧ s.pc d.executor = .drain g w
  older : ∀ i x y, i + 1 < rest → d.members[i]? = some x → d.members[i + 1]? = some y →
    s.linkOlder y = some x
  held : ∀ i w, i < rest → d.members[i]? = some w → w ≠ d.executor → Held s w
  released : ∀ i w, rest ≤ i → d.members[i]? = some w → w ≠ d.executor → Released s w
  follower : d.executor ≠ g → ∀ i, i < rest → d.members[i]? = some d.executor →
    s.state d.executor = .parallelMemtableWriter
  executor : ∀ i, rest ≤ i → d.members[i]? = some d.executor → s.state d.executor = .completed
  leader : d.executor ≠ g → s.pc g = .awaitCompleted

/-- A follower has released all but the leader. -/
structure Releasing (s : State) (d : Detached) (g : Nat) : Prop where
  executor : d.executor ≠ g
  pc : s.pc d.executor = .release g
  state : s.state d.executor = .completed
  leader : Held s g
  leaderPc : s.pc g = .awaitCompleted
  released : ∀ w ∈ d.members, w ≠ g → w ≠ d.executor → Released s w

/-- A group that has left the list. -/
def Detached.Ok (s : State) (d : Detached) : Prop :=
  d.executor ∈ d.members ∧ ∃ g, d.members.head? = some g ∧
    match d.leaving with
    | .draining rest => Draining s d g rest
    | .releasing => Releasing s d g
    | .finished => ∀ w ∈ d.members, Released s w

/-- The memory of the write thread shows the queue `v`. -/
structure Sim (c : Config) (s : State) (v : View) : Prop where
  fault : s.fault = false
  order : s.order = v.linked
  nodup : v.linked.Nodup
  newest : s.newestWriter = v.queue.getLast?
  linked : Linked s.linkOlder s.linkNewer v.queue v.gap
  unlinked : ∀ w ∉ v.linked, Unlinked s w
  pending : ∀ w ∈ v.pending, Pending c s w
  front : Front c s v.toLine
  left : ∀ d ∈ v.left, d.Ok s
  closed : s.formed = v.closed
  fits : ∀ group ∈ s.formed, Fits c group

/-! ### Locality -/

section Congr

variable {c : Config} {s s' : State} {v : Line} {w : Nat}

/-- `Unlinked` reads the place, the state and the newer link of the writer. -/
theorem Unlinked.congr (h : Unlinked s w) (hpc : s'.pc w = s.pc w) (hstate : s'.state w = s.state w)
    (hnewer : s'.linkNewer w = s.linkNewer w) : Unlinked s' w := by
  rw [Unlinked, hpc, hstate, hnewer]
  exact h

/-- `Waiting` reads the place and the state of the writer. -/
theorem Waiting.congr (h : Waiting s w) (hpc : s'.pc w = s.pc w) (hstate : s'.state w = s.state w) :
    Waiting s' w := by
  rw [Waiting, hpc, hstate]
  exact h

/-- `Pending` reads the place and the state of the writer. -/
theorem Pending.congr (h : Pending c s w) (hpc : s'.pc w = s.pc w)
    (hstate : s'.state w = s.state w) : Pending c s' w := by
  rw [Pending, hpc, hstate]
  exact h

/-- `Held` reads the place and the state of the writer. -/
theorem Held.congr (h : Held s w) (hpc : s'.pc w = s.pc w) (hstate : s'.state w = s.state w) :
    Held s' w := by
  rw [Held, Waiting, hpc, hstate]
  exact h

/-- `Released` reads the place and the state of the writer. -/
theorem Released.congr (h : Released s w) (hpc : s'.pc w = s.pc w)
    (hstate : s'.state w = s.state w) : Released s' w := by
  rw [Released, hpc, hstate]
  exact h

/-- A group that has left the list depends on its members only. -/
theorem Detached.Ok.congr {d : Detached} (h : d.Ok s) (hpc : ∀ w ∈ d.members, s'.pc w = s.pc w)
    (hstate : ∀ w ∈ d.members, s'.state w = s.state w)
    (holder : ∀ w ∈ d.members, s'.linkOlder w = s.linkOlder w) : d.Ok s' := by
  obtain ⟨hx, g, hg, h⟩ := h
  have hgm : g ∈ d.members := List.mem_of_head? hg
  refine ⟨hx, g, hg, ?_⟩
  cases hd : d.leaving with
  | draining rest =>
      rw [hd] at h
      obtain ⟨hcur, holder', hheld, hreleased, hfollower, hexec, hleader⟩ := h
      refine ⟨by rwa [hpc _ hx], ?_, ?_, ?_, by rwa [hstate _ hx], ?_, ?_⟩
      · intro i a b hi ha hb
        rw [holder _ (List.mem_of_getElem? hb)]
        exact holder' i a b hi ha hb
      · intro i w hi hw hne
        have hmem := List.mem_of_getElem? hw
        exact (hheld i w hi hw hne).congr (hpc w hmem) (hstate w hmem)
      · intro i w hi hw hne
        have hmem := List.mem_of_getElem? hw
        exact (hreleased i w hi hw hne).congr (hpc w hmem) (hstate w hmem)
      · rwa [hstate _ hx]
      · rwa [hpc _ hgm]
  | releasing =>
      rw [hd] at h
      obtain ⟨hne, hpc', hstate', hheld, hleader, hreleased⟩ := h
      refine ⟨hne, by rwa [hpc _ hx], by rwa [hstate _ hx], hheld.congr (hpc g hgm) (hstate g hgm),
        by rwa [hpc _ hgm], ?_⟩
      intro w hw hwg hwx
      exact (hreleased w hw hwg hwx).congr (hpc w hw) (hstate w hw)
  | finished =>
      rw [hd] at h
      exact fun w hw => (h w hw).congr (hpc w hw) (hstate w hw)

/-- `Walk` reads the newer links. -/
theorem Walk.congr {head e : Nat} (h : Walk s v head e) (hnewer : s'.linkNewer = s.linkNewer) :
    Walk s' v head e := by
  rw [Walk, hnewer]
  exact h

/-- `Gathered` reads the write groups. -/
theorem Gathered.congr {g k size : Nat} (h : Gathered c s v g k size) (hgroup : s'.group = s.group)
    (hwrite : s'.writeGroup = s.writeGroup) : Gathered c s' v g k size := by
  obtain ⟨h₁, h₂, h₃, h₄, h₅⟩ := h
  exact ⟨by rwa [hgroup], by rwa [hgroup], by rwa [hwrite], h₄, h₅⟩

/-- `Closed` reads the newer links and the write groups. -/
theorem Closed.congr {g : Nat} (h : Closed s v g) (hnewer : s'.linkNewer = s.linkNewer)
    (hgroup : s'.group = s.group) (hwrite : s'.writeGroup = s.writeGroup) : Closed s' v g := by
  obtain ⟨h₁, h₂, h₃, h₄⟩ := h
  exact ⟨by rwa [hgroup], by rwa [hgroup], by rwa [hwrite], by rwa [hnewer]⟩

/-- The front group depends on the places and states of its members only, as long as links and
groups stay. -/
theorem Front.congr (h : Front c s v) (hpc : ∀ w ∈ v.front, s'.pc w = s.pc w)
    (hstate : ∀ w ∈ v.front, s'.state w = s.state w) (hnewer : s'.linkNewer = s.linkNewer)
    (hgroup : s'.group = s.group) (hwrite : s'.writeGroup = s.writeGroup) : Front c s' v := by
  unfold Front at h ⊢
  cases hfront : v.front with
  | nil => rwa [hfront] at h
  | cons g rest =>
      have hg : g ∈ v.front := by simp [hfront]
      rw [hfront] at h
      simp only at h ⊢
      cases hphase : v.phase with
      | leading =>
          rw [hphase] at h
          refine ⟨h.1, ?_⟩
          have hlead := h.2
          unfold Leading at hlead ⊢
          rw [hpc g hg]
          cases hp : s.pc g <;> simp only [hp] at hlead ⊢ <;>
            first
            | exact hlead
            | (rw [hstate g hg]; exact hlead)
            | skip
          · obtain ⟨h₁, h₂, e, h₃, h₄⟩ := hlead
            exact ⟨by rwa [hstate g hg], h₂.congr hgroup hwrite, e, h₃, h₄.congr hnewer⟩
          · obtain ⟨h₁, h₂, k, e, h₃, h₄⟩ := hlead
            rw [hnewer, hstate g hg]
            exact ⟨h₁, h₂, k, e, h₃.congr hgroup hwrite, h₄⟩
      | serial =>
          rw [hphase] at h
          obtain ⟨h₁, h₂, h₃, h₄, h₅⟩ := h
          exact ⟨h₁, h₂.congr hnewer hgroup hwrite, by rwa [hstate g hg], by rwa [hpc g hg],
            fun w hw hne => (h₅ w hw hne).congr (hpc w hw) (hstate w hw)⟩
      | launched told =>
          rw [hphase] at h
          obtain ⟨h₁, h₂, h₀, h₃, h₄, h₅, h₆, h₇, h₈⟩ := h
          refine ⟨h₁, h₂.congr hnewer hgroup hwrite, by rwa [hstate g hg], ?_, ?_, ?_,
            by rwa [hpc g hg], ?_, by rwa [hgroup]⟩
          · intro i w hi hw
            rw [hstate w (List.mem_of_getElem? hw)]
            exact h₃ i w hi hw
          · intro i w hi hw hne
            rw [hpc w (List.mem_of_getElem? hw)]
            exact h₄ i w hi hw hne
          · intro i w hi hw hne
            have hmem := List.mem_of_getElem? hw
            exact (h₅ i w hi hw hne).congr (hpc w hmem) (hstate w hmem)
          · rw [hgroup, h₇]
            exact List.countP_congr fun w hw => by rw [hpc w hw]
      | exiting x =>
          rw [hphase] at h
          obtain ⟨h₁, h₂, h₃, h₄⟩ := h
          refine ⟨h₁, fun w hw hne => (h₂ w hw hne).congr (hpc w hw) (hstate w hw), ?_, ?_⟩
          · rwa [hstate x h₁, hpc g hg]
          · unfold Exit at h₄ ⊢
            rw [hpc x h₁]
            cases hp : s.pc x <;> simp only [hp] at h₄ ⊢ <;>
              first
              | exact h₄
              | (rw [hnewer]; exact h₄)
              | exact ⟨h₄.1, h₄.2.congr hnewer hgroup hwrite⟩
              | skip
            obtain ⟨h₅, h₆, e, h₇, h₈⟩ := h₄
            exact ⟨h₅, h₆, e, h₇, h₈.congr hnewer⟩

end Congr

end P2KVS.WriteThread
