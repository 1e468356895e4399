import P2KVS.Ycsb.Ledger

/-!
# The key buffer of a `ycsb.cpp` worker

The pending keys of a worker are references to its one key buffer, which every request overwrites.
`Buffered` says what the buffer holds: the key of the request taken last. So all keys of a lookup
denote that key, whatever the requests behind them asked for (`Worker.step_resolves`).

`own_keys_of_run` draws the conclusion for any worker of this kind: if every request taken while
reads are pending has their key, each lookup uses the keys of its own requests.
-/

namespace P2KVS

open History Transition

/-- A lookup of requests among `pending` in which all keys denote the same bytes. -/
def Call.Resolves (pending : List Nat) (bytes : Slice) : Call → Prop
  | .multiGet reqs keys _ => reqs ⊆ pending ∧ keys = List.replicate reqs.length bytes
  | _ => True

/-- A lookup in which the key of each request denotes the request's own bytes. -/
def Call.OwnKeys (bytes : Nat → Slice) : Call → Prop
  | .multiGet reqs keys _ => keys = reqs.map bytes
  | _ => True

/-- When all keys denote the bytes of one request and all pending requests have the same, each
request sees its own. -/
theorem Call.Resolves.ownKeys {bytes : Nat → Slice} {pending : List Nat} {last : Nat} {call : Call}
    (h : call.Resolves pending (bytes last)) (hsame : ∀ r ∈ pending, bytes r = bytes last) :
    call.OwnKeys bytes := by
  cases call with
  | multiGet reqs keys statuses =>
      obtain ⟨hsub, hkeys⟩ := h
      show keys = reqs.map bytes
      rw [hkeys, eq_comm, List.eq_replicate_iff, List.length_map]
      refine ⟨rfl, List.forall_mem_map.mpr fun r hr => hsame r (hsub hr)⟩
  | write reqs batch status => trivial
  | newIterator req start size => trivial

section Run

variable {W C : Type*} {sys : System W C} {allowed : W → C → Prop}

/-- A worker that looks up its pending reads under the key of the request it took last uses the keys
of its own requests, in every run in which each request taken while reads are pending has their
key. -/
theorem own_keys_of_run (seq : W → Nat) (reads : W → List Nat) (calls : W → List Call)
    (bytes : Nat → Slice) (hinit : reads sys.init = [] ∧ calls sys.init = [])
    (hstep : ∀ {w c w'}, sys.Reachable allowed w → allowed w c → sys.step w c = some w' →
      Extends (Call.Resolves (reads w ++ [seq w' - 1]) (bytes (seq w' - 1))) (calls w)
          (calls w') ∧
        reads w' ⊆ reads w ++ [seq w' - 1] ∧
        (seq w' = seq w ∨ seq w' = seq w + 1 ∧ ∀ i ∈ reads w, bytes i = bytes (seq w)))
    {w : W} (h : sys.Reachable allowed w) : ∀ call ∈ calls w, call.OwnKeys bytes := by
  -- the pending reads have the key of the request taken last
  refine (h.invariant (I := fun w => (∀ call ∈ calls w, call.OwnKeys bytes) ∧
    ∀ i ∈ reads w, bytes i = bytes (seq w - 1)) ?_ ?_).1
  · simp [hinit]
  intro w c w' hw hold hallowed hwork
  obtain ⟨⟨made, hmade, hresolves⟩, hreads, hseq⟩ := hstep hw hallowed hwork
  have hlast : ∀ i ∈ reads w ++ [seq w' - 1], bytes i = bytes (seq w' - 1) := by
    intro i hi
    rcases List.mem_append.mp hi with hi | hi
    · rcases hseq with hsame | ⟨hnext, htaken⟩
      · rw [hsame]
        exact hold.2 i hi
      · rw [hnext, Nat.add_sub_cancel]
        exact htaken i hi
    · rw [List.mem_singleton.mp hi]
  refine ⟨?_, fun i hi => hlast i (hreads hi)⟩
  rw [hmade]
  exact List.forall_mem_append.mpr
    ⟨hold.1, fun call hcall => (hresolves call hcall).ownKeys hlast⟩

end Run

namespace Ycsb

/-- References to a full buffer denote what it holds. -/
theorem map_resolve_replicate (n : Nat) (buffer : Slice) :
    (List.replicate n (KeySlice.mk buffer.length)).map (KeySlice.resolve buffer) =
      List.replicate n buffer := by
  rw [List.map_replicate, KeySlice.resolve, List.take_length]

/-- The bytes that `GenerateKeyFromInt` produces for the request at position `i`. -/
def bytes (p : Params) (slots : Nat → AsyncRequest) (i : Nat) : Slice :=
  generateKeyFromInt p.keySize (slots i).key

/-- The pending keys are references to the whole buffer, and the buffer holds the key of the request
taken last. -/
structure Buffered (p : Params) (slots : Nat → AsyncRequest) (v : Locals) : Prop where
  keys : v.mutligetKeys = List.replicate v.reads.length ⟨p.keySize⟩
  buffer : 0 < v.seq → v.key = bytes p slots (v.seq - 1)

/-- Nothing is pending at the start. -/
theorem buffered_start (p : Params) (slots : Nat → AsyncRequest) : Buffered p slots (.start p) := by
  constructor <;> simp [Locals.start]

/-- Every request overwrites the buffer with its key. -/
theorem buffered_stable (p : Params) (slots : Nat → AsyncRequest) :
    Stable p slots (fun _ => True) (fun _ => True) (Buffered p slots) where
  writeOut := fun _ h _ => ⟨h.keys, h.buffer⟩
  readOut := fun _ h => ⟨rfl, h.buffer⟩
  put := fun _ h _ _ => ⟨h.keys, fun _ => rfl⟩
  pushKey := by
    intro v _ h _ _
    refine ⟨?_, fun _ => rfl⟩
    show v.mutligetKeys ++ [⟨p.keySize⟩] =
      List.replicate (v.reads ++ [v.seq]).length ⟨p.keySize⟩
    rw [h.keys, List.length_append, List.length_singleton, List.replicate_succ']
  scan := fun _ h _ _ => ⟨h.keys, fun _ => rfl⟩

section Lookups

variable {p : Params} {slots : Nat → AsyncRequest} {v : Locals}

/-- The pending keys denote the key of the request taken last. -/
theorem Buffered.resolve (hledger : Ledger p slots v) (h : Buffered p slots v) :
    v.mutligetKeys.map (KeySlice.resolve v.key) =
      List.replicate v.reads.length (bytes p slots (v.seq - 1)) := by
  rcases List.eq_nil_or_concat v.reads with hnone | ⟨front, r, hsome⟩
  · rw [h.keys, hnone]
    rfl
  · have hmem : r ∈ positions (isPoint slots) v.seq := by
      rw [← hledger.reads, hsome]
      simp
    have hpos : 0 < v.seq := Nat.zero_lt_of_lt (mem_positions.mp hmem).1
    have hlength : p.keySize = (bytes p slots (v.seq - 1)).length :=
      (length_generateKeyFromInt _ _).symm
    rw [h.keys, h.buffer hpos, hlength, map_resolve_replicate]

/-- The flush of the pending writes looks nothing up. -/
theorem extends_flushWrites (pending : List Nat) (b : Slice) (c : Choice) (report : Bool) :
    Extends (Call.Resolves pending b) v.calls (v.flushWrites c report).calls := by
  unfold Locals.flushWrites
  split_ifs
  · exact extends_concat _ trivial
  · exact extends_refl _ _

/-- What a step that takes the variables `v` to `v'` makes of the pending reads: it leaves them,
extends them by the request it takes, or looks them up under the key of the request taken last. -/
structure Resolves (p : Params) (slots : Nat → AsyncRequest) (v v' : Locals) : Prop where
  calls : Extends (Call.Resolves (v.reads ++ [v'.seq - 1]) (bytes p slots (v'.seq - 1))) v.calls
    v'.calls
  reads : v'.reads ⊆ v.reads ++ [v'.seq - 1]

/-- A step that leaves the reads pending and looks nothing up. -/
theorem resolves_of_reads {v' : Locals} (hreads : v'.reads = v.reads)
    (hcalls : Extends (Call.Resolves (v.reads ++ [v'.seq - 1]) (bytes p slots (v'.seq - 1)))
      v.calls v'.calls) : Resolves p slots v v' :=
  ⟨hcalls, by rw [hreads]; exact List.subset_append_left _ _⟩

/-- The flush of the pending reads of an idle worker. -/
theorem Buffered.flushReads (hledger : Ledger p slots v) (h : Buffered p slots v) (c : Choice)
    (report : Bool) : Resolves p slots v (v.flushReads p c report) := by
  unfold Locals.flushReads
  split_ifs
  · exact ⟨extends_concat _ ⟨List.subset_append_left _ _, h.resolve hledger⟩,
      List.nil_subset _⟩
  · exact resolves_of_reads rfl (extends_refl _ _)

/-- The lookups of the end marker see the key of the request taken last. -/
theorem Buffered.handleEnd (hledger : Ledger p slots v) (h : Buffered p slots v) (c : Choice) :
    Resolves p slots v (v.handleEnd p c) := by
  obtain ⟨hseq, hreads⟩ := Locals.handleEnd_seq_reads p c v
  refine resolves_of_reads hreads ?_
  rw [hseq]
  have hlookup := And.intro (List.subset_append_left v.reads [v.seq - 1]) (h.resolve hledger)
  have hwrite : Extends (Call.Resolves (v.reads ++ [v.seq - 1]) (bytes p slots (v.seq - 1)))
      v.calls (v.dbWrite c false).calls := extends_concat _ trivial
  unfold Locals.handleEnd
  dsimp only
  split_ifs
  · -- the write changes neither the buffer nor the pending keys
    exact hwrite.trans (extends_concat _ hlookup)
  · exact hwrite
  · exact extends_concat _ hlookup
  · exact extends_refl _ _

/-- A request is looked up together with the reads pending before it, all of them under its own
key. -/
theorem Buffered.handle (hledger : Ledger p slots v) (h : Buffered p slots v) (c : Choice) :
    Resolves p slots v (v.handle p c (slots v.seq)) := by
  by_cases hseq : (slots v.seq).seq = -1
  · rw [Locals.handle_end hseq]
    exact h.handleEnd hledger c
  cases hwrite : (slots v.seq).write with
  | true =>
      rw [Locals.handle_write hseq hwrite]
      split_ifs
      · exact resolves_of_reads rfl (extends_concat _ trivial)
      · exact resolves_of_reads rfl (extends_refl _ _)
  | false =>
      have hflush := (buffered_stable p slots).flushWrites (c := c) ⟨hledger, h⟩ trivial true
      have hempty := hledger.flushed c true
      have hold := fun pending b => extends_flushWrites (v := v) pending b c true
      have hsame := Locals.flushWrites_seq c v true
      have hreads := Locals.flushWrites_reads c v true
      rw [Locals.handle_read hseq hwrite]
      generalize v.flushWrites c true = u at hflush hempty hold hsame hreads ⊢
      rw [← hsame] at hseq hwrite ⊢
      split_ifs with hsize
      · have hpoint : isPoint slots u.seq = true := by simp [isPoint, hwrite, hsize]
        have hpush := hflush.1.pushKey hseq hpoint
        have hlaw := (buffered_stable p slots).pushKey hflush.1 hflush.2 hempty hpoint
        have hpending : u.reads ++ [u.seq] ⊆ v.reads ++ [u.seq] := by rw [hreads]; exact fun _ => id
        rw [Locals.pointQuery_eq]
        split_ifs
        · exact ⟨(hold _ _).trans (extends_concat _ ⟨hpending, hlaw.resolve hpush⟩),
            List.nil_subset _⟩
        · exact ⟨hold _ _, hpending⟩
      · exact resolves_of_reads hreads ((hold _ _).trans (extends_concat _ trivial))

end Lookups

/-- The request about to be taken, if any, has the key of every pending read. -/
def SameKey (p : Params) (slots : Nat → AsyncRequest) (w : Worker) (_ : Choice) : Prop :=
  match w.pc with
  | .handle r => r.seq ≠ -1 →
      ∀ i ∈ w.vars.reads, bytes p slots i = generateKeyFromInt p.keySize r.key
  | _ => True

/-- The condition is about the state before the step, and can be computed. -/
instance decidableSameKey (p : Params) (slots : Nat → AsyncRequest) (w : Worker) (c : Choice) :
    Decidable (SameKey p slots w c) := by
  unfold SameKey
  cases w.pc <;> infer_instance

section Worker

variable {p : Params} {slots : Nat → AsyncRequest} {tail : Nat} {allowed : Worker → Choice → Prop}
  {w w' : Worker} {c : Choice}

/-- In every state of a worker the buffer holds the key of the request taken last. -/
theorem Worker.buffered_reachable (h : (Worker.alone p slots tail).Reachable allowed w) :
    Worker.Inv p slots (Buffered p slots) w :=
  Worker.inv_reachable (buffered_stable p slots) tail (buffered_start p slots)
    (h.mono fun _ _ _ => ⟨trivial, fun _ => trivial⟩)

/-- In every step of a worker, all keys of a lookup denote the key of the request taken last. -/
theorem Worker.step_resolves (h : (Worker.alone p slots tail).Reachable allowed w)
    (hstep : Worker.step p slots tail c w = some w') : Resolves p slots w.vars w'.vars := by
  have hinv := Worker.buffered_reachable h
  have hvars : w.pc ≠ .exited → Ledger p slots w.vars ∧ Buffered p slots w.vars := fun hne =>
    Worker.settled_of_ne hne ▸ ⟨hinv.ledger, hinv.law⟩
  obtain ⟨_, hsame, _⟩ | ⟨_, rfl⟩ | ⟨hpc, rfl⟩ | ⟨r, hpc, rfl⟩ := Worker.step_cases hstep
  · rw [hsame]
    exact resolves_of_reads rfl (extends_refl _ _)
  · exact resolves_of_reads (Locals.flushWrites_reads c w.vars false)
      (extends_flushWrites _ _ c false)
  · obtain ⟨hledger, hbuffered⟩ := hvars (by simp [hpc])
    exact hbuffered.flushReads hledger c false
  · obtain rfl := hinv.request r hpc
    obtain ⟨hledger, hbuffered⟩ := hvars (by simp [hpc])
    exact hbuffered.handle hledger c

/-- A step that moves `seq` takes the request there. -/
theorem Worker.step_takes (h : (Worker.alone p slots tail).Reachable allowed w)
    (hsame : SameKey p slots w c) (hstep : Worker.step p slots tail c w = some w') :
    w'.vars.seq = w.vars.seq ∨ w'.vars.seq = w.vars.seq + 1 ∧
      ∀ i ∈ w.vars.reads, bytes p slots i = bytes p slots w.vars.seq := by
  obtain ⟨_, hvars, _⟩ | ⟨_, rfl⟩ | ⟨_, rfl⟩ | ⟨r, hpc, rfl⟩ := Worker.step_cases hstep
  · rw [hvars]
    exact .inl rfl
  · exact .inl (Locals.flushWrites_seq c w.vars false)
  · exact .inl (Locals.flushReads_seq_batch p c w.vars false).1
  · have hseq := Locals.handle_seq p c w.vars r
    split_ifs at hseq with hend
    · exact .inl hseq
    · refine .inr ⟨hseq, fun i hi => ?_⟩
      rw [SameKey, hpc] at hsame
      rw [hsame hend i hi, (Worker.buffered_reachable h).request r hpc]
      rfl

/-- If every request taken while reads are pending has their key, the lookups of a worker use the
keys of their own requests. -/
theorem Worker.ownKeys (h : (Worker.alone p slots tail).Reachable (SameKey p slots) w) :
    ∀ call ∈ w.vars.calls, call.OwnKeys (bytes p slots) := by
  refine own_keys_of_run (fun w => w.vars.seq) (fun w => w.vars.reads) (fun w => w.vars.calls) _
    ⟨rfl, rfl⟩ ?_ h
  intro w c w' hw hsame hstep
  obtain ⟨hcalls, hreads⟩ := Worker.step_resolves hw hstep
  exact ⟨hcalls, hreads, Worker.step_takes hw hsame hstep⟩

end Worker

end Ycsb

end P2KVS
