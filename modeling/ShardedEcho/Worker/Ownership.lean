import ShardedEcho.Worker.Loop
import Mathlib.Data.List.Nodup

/-!
# Every I/O context in exactly one place

Between two entries each of the `2 · OUTSTANDING_OPS` contexts of a worker is outstanding in
the kernel, on `available_send_contexts`, or abandoned after a failed `post_recv`, and in
exactly one of them. While an entry is handled the worker also holds a few contexts in its
hands: the context of the completion it dequeued, and the send context it popped.

`Holds n s hand` states this with the held contexts `hand`. The operations of the loop move
one context between `hand` and a place (`Holds.take`, `Holds.put`); a post never meets an
outstanding context because what is posted is held (`Holds.fresh`). From these:

* `Holds.handleEntry_some`: a delivered entry is handled without undefined behaviour and keeps
  the invariant; `Holds.start`: so does the start of the worker;
* `worker_contexts_owned`: after every processed entry of every run, the contexts are owned
  as the spec's state machines say, and the receive pipeline has lost exactly one context per
  failed `post_recv`;
* `handleBatch_run`, `workerThreadFunc_run`: a batch dequeued by
  `GetQueuedCompletionStatusEx` (its entries distinct and outstanding when dequeued) is a
  sequence of delivered entries, so `worker_thread_func` over such batches is a run.
-/

namespace ShardedEcho

open scoped List

/-! ## Places -/

/-- The places of the worker's contexts between two entries: outstanding in the kernel, on
the free-list, abandoned. -/
def WorkerState.places (s : WorkerState) : List IoContext :=
  s.outstanding ++ (s.availableSendContexts ++ s.abandoned)

/-- The number of outstanding requests of one kind. -/
def WorkerState.outstandingOf (s : WorkerState) (operation : IoOperationType) : Nat :=
  (s.outstanding.filter (·.operation == operation)).length

/-- Whether an entry is the completion of a receive. -/
def OverlappedEntry.isRecv (entry : OverlappedEntry) : Bool :=
  match entry.lpOverlapped with
  | some ioCtx => ioCtx.operation == .recv
  | none => false

/-- The `post_recv` calls of a run that failed: the initial ones, then one for each receive
completion whose re-post was refused. -/
def failedRecvPosts (outstandingOps : Nat) (initOk : Nat → Bool)
    (trace : List (OverlappedEntry × PostOutcome)) : Nat :=
  (List.range outstandingOps).countP (fun i => !initOk i) +
    trace.countP (fun step => step.1.isRecv && !step.2.recvOk)

/-- Ownership while the worker holds the contexts `hand`: with them, the places hold every
context of the worker exactly once; the free-list holds send contexts and only receive
contexts are abandoned. -/
structure Holds (outstandingOps : Nat) (s : WorkerState) (hand : List IoContext) : Prop where
  perm : hand ++ s.places ~ allContexts outstandingOps
  available_send : ∀ c ∈ s.availableSendContexts, c.operation = .send
  abandoned_recv : ∀ c ∈ s.abandoned, c.operation = .recv

/-! ## Moves -/

variable {n : Nat} {s s' : WorkerState} {hand : List IoContext} {c : IoContext}

theorem allocateContexts_nodup (operation : IoOperationType) (n : Nat) :
    (allocateContexts operation n).Nodup :=
  (List.nodup_range n).map fun _ _ h => (IoContext.mk.inj h).2

theorem operation_of_mem_allocateContexts {operation : IoOperationType}
    (h : c ∈ allocateContexts operation n) : c.operation = operation := by
  obtain ⟨_, _, rfl⟩ := List.mem_map.1 h
  rfl

theorem allContexts_nodup (n : Nat) : (allContexts n).Nodup := by
  refine List.nodup_append.2 ⟨allocateContexts_nodup _ n, allocateContexts_nodup _ n, ?_⟩
  intro c hr hs
  cases (operation_of_mem_allocateContexts hr).symm.trans (operation_of_mem_allocateContexts hs)

theorem length_filter_allContexts (n : Nat) (operation : IoOperationType) :
    ((allContexts n).filter (·.operation == operation)).length = n := by
  cases operation <;> simp [allContexts, allocateContexts, List.filter_map, Function.comp_def]

/-- What is held is in no place, so in particular not outstanding. -/
theorem Holds.fresh (h : Holds n s (c :: hand)) : c ∉ s.outstanding := fun hc =>
  (List.nodup_cons.1 (h.perm.nodup_iff.2 (allContexts_nodup n))).1
    (List.mem_append_right _ (List.mem_append_left _ hc))

/-- Putting a held context into a place. -/
theorem Holds.put (h : Holds n s (c :: hand)) (hp : s'.places ~ c :: s.places)
    (ha : ∀ d ∈ s'.availableSendContexts, d.operation = .send)
    (hb : ∀ d ∈ s'.abandoned, d.operation = .recv) : Holds n s' hand :=
  ⟨((hp.append_left hand).trans List.perm_middle).trans h.perm, ha, hb⟩

/-- Taking a context out of its place into the hand. -/
theorem Holds.take (h : Holds n s hand) (hp : s.places ~ c :: s'.places)
    (ha : ∀ d ∈ s'.availableSendContexts, d.operation = .send)
    (hb : ∀ d ∈ s'.abandoned, d.operation = .recv) : Holds n s' (c :: hand) :=
  ⟨(List.perm_middle.symm.trans (hp.symm.append_left hand)).trans h.perm, ha, hb⟩

theorem places_push (s : WorkerState) (c : IoContext) :
    { s with availableSendContexts := c :: s.availableSendContexts }.places ~ c :: s.places :=
  List.perm_middle

theorem places_abandon (s : WorkerState) (c : IoContext) :
    { s with abandoned := c :: s.abandoned }.places ~ c :: s.places :=
  (List.perm_middle.append_left _).trans List.perm_middle

/-- Pushing a held send context back on the free-list. -/
theorem Holds.push (h : Holds n s (c :: hand)) (hc : c.operation = .send) :
    Holds n { s with availableSendContexts := c :: s.availableSendContexts } hand :=
  h.put (places_push s c) (List.forall_mem_cons.2 ⟨hc, h.available_send⟩) h.abandoned_recv

/-- `post_recv` of a held receive context succeeds as a call, and tells in the ghost state
whether the kernel refused it. -/
theorem Holds.postRecv_some (h : Holds n s (c :: hand)) (hc : c.operation = .recv) (ok : Bool) :
    ∃ s', postRecv s c ok = some s' ∧ Holds n s' hand ∧
      s'.abandoned.length = s.abandoned.length + (!ok).toNat := by
  have fresh := h.fresh
  cases ok with
  | true =>
    exact ⟨{ s with outstanding := c :: s.outstanding },
      by simp [postRecv, WorkerState.submit, fresh],
      h.put (List.Perm.refl _) h.available_send h.abandoned_recv, rfl⟩
  | false =>
    exact ⟨{ s with abandoned := c :: s.abandoned },
      by simp [postRecv, WorkerState.submit, fresh],
      h.put (places_abandon s c) h.available_send (List.forall_mem_cons.2 ⟨hc, h.abandoned_recv⟩),
      rfl⟩

/-- An accepted `post_send` of a held context makes it outstanding. -/
theorem Holds.postSend_true (h : Holds n s (c :: hand)) :
    postSend s c true = some { s with outstanding := c :: s.outstanding } ∧
      Holds n { s with outstanding := c :: s.outstanding } hand :=
  ⟨by simp [postSend, WorkerState.submit, h.fresh],
    h.put (List.Perm.refl _) h.available_send h.abandoned_recv⟩

/-- A refused `post_send` of a held context changes nothing. -/
theorem Holds.postSend_false (h : Holds n s (c :: hand)) : postSend s c false = some s := by
  simp [postSend, WorkerState.submit, h.fresh]

/-- Dequeuing the completion of an outstanding request takes its context into the hand. -/
theorem Holds.complete (h : Holds n s []) (hc : c ∈ s.outstanding) :
    Holds n { s with outstanding := s.outstanding.erase c } [c] :=
  h.take ((List.perm_cons_erase hc).append_right _) h.available_send h.abandoned_recv

/-- `back()` and `pop_back()` of a non-empty free-list take a send context into the hand. -/
theorem Holds.pop {rest : List IoContext} (h : Holds n s hand)
    (hs : s.availableSendContexts = c :: rest) :
    Holds n { s with availableSendContexts := rest } (c :: hand) ∧ c.operation = .send := by
  have hp : s.places ~ c :: { s with availableSendContexts := rest }.places := by
    simp only [WorkerState.places, hs, List.cons_append]
    exact List.perm_middle
  have hkind : ∀ d ∈ rest, d.operation = .send := fun d hd =>
    h.available_send d (hs ▸ List.mem_cons_of_mem c hd)
  exact ⟨h.take hp hkind h.abandoned_recv, h.available_send c (hs ▸ List.mem_cons_self c rest)⟩

/-- `Holds` only looks at the places of the contexts. -/
theorem Holds.congr (h : Holds n s hand) (ho : s'.outstanding = s.outstanding)
    (ha : s'.availableSendContexts = s.availableSendContexts) (hb : s'.abandoned = s.abandoned) :
    Holds n s' hand := by
  obtain ⟨hp, hs, hr⟩ := h
  exact ⟨by rwa [WorkerState.places, ho, ha, hb], ha ▸ hs, hb ▸ hr⟩

/-- The echo of a held send context never posts an outstanding one, and puts the context
back in a place. -/
theorem Holds.echo_some (h : Holds n s (c :: hand)) (hc : c.operation = .send) (bytes : Nat)
    (ok : Bool) : ∃ s', echo s c bytes ok = some s' ∧ Holds n s' hand ∧ s'.abandoned = s.abandoned := by
  cases ok with
  | true =>
    simp only [echo, h.postSend_true.1, Option.map_some', if_true]
    exact ⟨_, rfl, h.postSend_true.2.congr rfl rfl rfl, rfl⟩
  | false =>
    simp only [echo, h.postSend_false, Option.map_some', Bool.false_eq_true, if_false]
    exact ⟨_, rfl, (h.push hc).congr rfl rfl rfl, rfl⟩

/-- The receive branch re-posts its held receive context exactly once on every path. -/
theorem Holds.handleRecv_some {ioCtx : IoContext} (h : Holds n s [ioCtx])
    (hop : ioCtx.operation = .recv) (bytes : Nat) (outcome : PostOutcome) :
    ∃ s', handleRecv s ioCtx bytes outcome = some s' ∧ Holds n s' [] ∧
      s'.abandoned.length = s.abandoned.length + (!outcome.recvOk).toNat := by
  unfold handleRecv
  split
  · split
    · refine Holds.postRecv_some ?_ hop _
      exact h.congr rfl rfl rfl
    · rename_i sendCtx rest hs
      obtain ⟨h2, hsend⟩ := h.pop hs
      obtain ⟨s3, he, h3, hl3⟩ := h2.echo_some hsend bytes outcome.sendOk
      obtain ⟨s4, hp, h4, hl4⟩ := h3.postRecv_some hop outcome.recvOk
      exact ⟨s4, by simp [he, hp], h4, by rw [hl4, hl3]⟩
  · refine Holds.postRecv_some ?_ hop _
    exact h.congr rfl rfl rfl

/-- One entry delivered by the kernel is handled without undefined behaviour, keeps the
invariant, and abandons its receive context exactly when its re-post is refused. -/
theorem Holds.handleEntry_some {entry : OverlappedEntry} (h : Holds n s []) (hd : Delivers s entry)
    (outcome : PostOutcome) :
    ∃ s', handleEntry s entry outcome = some s' ∧ Holds n s' [] ∧
      s'.abandoned.length = s.abandoned.length + (entry.isRecv && !outcome.recvOk).toNat := by
  unfold handleEntry OverlappedEntry.isRecv
  unfold Delivers at hd
  cases hc : entry.lpOverlapped with
  | none => exact ⟨s, rfl, h, rfl⟩
  | some ioCtx =>
    rw [hc] at hd
    have h1 := h.complete hd
    dsimp only
    cases hop : ioCtx.operation with
    | send => exact ⟨_, rfl, h1.push hop, rfl⟩
    | recv =>
      refine Holds.handleRecv_some ?_ hop _ outcome
      exact h1.congr rfl rfl rfl

/-- The initial posts of `worker_thread_func` take the held receive contexts one by one. -/
theorem Holds.postAll {cs : List IoContext} (h : Holds n s cs)
    (hcs : ∀ c ∈ cs, c.operation = .recv) (initOk : Nat → Bool) :
    ∃ s', cs.foldlM (fun s ctx => postRecv s ctx (initOk ctx.index)) s = some s' ∧
      Holds n s' [] ∧ s'.abandoned.length = s.abandoned.length + cs.countP (!initOk ·.index) := by
  induction cs generalizing s with
  | nil => exact ⟨s, rfl, h, rfl⟩
  | cons c cs ih =>
    obtain ⟨s1, h1, hh1, hl1⟩ := h.postRecv_some (hcs c (List.mem_cons_self c cs)) (initOk c.index)
    obtain ⟨s2, h2, hh2, hl2⟩ := ih hh1 fun d hd => hcs d (List.mem_cons_of_mem c hd)
    refine ⟨s2, by simp [h1, h2], hh2, ?_⟩
    rw [hl2, hl1, List.countP_cons]
    cases initOk c.index <;> simp [Nat.add_assoc, Nat.add_comm]

/-- The start of the worker posts every receive context once, with no undefined behaviour. -/
theorem Holds.start (n : Nat) (initOk : Nat → Bool) :
    ∃ s, startWorker n initOk = some s ∧ Holds n s [] ∧
      s.abandoned.length = (List.range n).countP (!initOk ·) := by
  have h0 : Holds n { availableSendContexts := (allocateContexts .send n).reverse }
      (allocateContexts .recv n) := by
    refine ⟨?_, fun _ hc => operation_of_mem_allocateContexts (List.mem_reverse.1 hc),
      List.forall_mem_nil _⟩
    simpa [WorkerState.places, allContexts] using
      (List.reverse_perm (allocateContexts .send n)).append_left (allocateContexts .recv n)
  obtain ⟨s, hs, h, hl⟩ := h0.postAll (fun _ => operation_of_mem_allocateContexts) initOk
  exact ⟨s, hs, h, by simpa [allocateContexts, Function.comp_def] using hl⟩

/-- Along every run the invariant holds between entries, and the abandoned receive contexts
are as many as the failed `post_recv` calls. -/
theorem Holds.run {initOk : Nat → Bool} {trace : List (OverlappedEntry × PostOutcome)}
    (run : Run n initOk trace s) :
    Holds n s [] ∧ s.abandoned.length = failedRecvPosts n initOk trace := by
  induction run with
  | start hs =>
    obtain ⟨s0, h0, hh, hl⟩ := Holds.start n initOk
    cases hs.symm.trans h0
    exact ⟨hh, by simp [failedRecvPosts, hl]⟩
  | @entry trace s s' entry outcome _ hd hstep ih =>
    obtain ⟨s'', h', hh, hl⟩ := ih.1.handleEntry_some hd outcome
    obtain rfl : s' = s'' := Option.some.inj (hstep.symm.trans h')
    refine ⟨hh, ?_⟩
    rw [hl, ih.2]
    simp only [failedRecvPosts, List.countP_append, List.countP_singleton]
    cases entry.isRecv && !outcome.recvOk <;> simp [Nat.add_assoc]

/-- Between entries the free-list and the abandoned list hold `n` contexts of each kind
with the outstanding ones. -/
theorem Holds.length_filter (h : Holds n s []) (operation : IoOperationType) :
    s.outstandingOf operation +
      ((s.availableSendContexts ++ s.abandoned).filter (·.operation == operation)).length = n := by
  have hlen := (h.perm.filter (·.operation == operation)).length_eq
  rw [length_filter_allContexts] at hlen
  simpa [WorkerState.places, WorkerState.outstandingOf, List.filter_append] using hlen

/-! ## Ownership along every run -/

/-- What the spec's state machines of the I/O contexts promise after the entries `trace`. -/
structure ContextsOwned (outstandingOps : Nat) (initOk : Nat → Bool)
    (trace : List (OverlappedEntry × PostOutcome)) (s : WorkerState) : Prop where
  /-- Every context is outstanding, free or abandoned, in exactly one of them. -/
  exactly_one : s.outstanding ++ s.availableSendContexts ++ s.abandoned ~ allContexts outstandingOps
  available_send : ∀ c ∈ s.availableSendContexts, c.operation = .send
  abandoned_recv : ∀ c ∈ s.abandoned, c.operation = .recv
  available_nodup : s.availableSendContexts.Nodup
  sends : s.availableSendContexts.length + s.outstandingOf .send = outstandingOps
  recvs : s.outstandingOf .recv + failedRecvPosts outstandingOps initOk trace = outstandingOps
  /-- The next delivered entry posts no context whose request is outstanding. -/
  posts_fresh : ∀ entry outcome, Delivers s entry → ∃ s', handleEntry s entry outcome = some s'

/-- The worker starts without posting an outstanding context, and after every processed
entry of every run, whatever the kernel delivers and whatever the posts return, its contexts
are owned as the spec's state machines say: each in exactly one place, the free-list holding
distinct send contexts as many as are not outstanding, and the receive pipeline short of
exactly one context per failed `post_recv`. -/
theorem worker_contexts_owned (outstandingOps : Nat) (initOk : Nat → Bool) :
    (∃ s, Run outstandingOps initOk [] s) ∧
      ∀ trace s, Run outstandingOps initOk trace s → ContextsOwned outstandingOps initOk trace s := by
  refine ⟨?_, fun trace s run => ?_⟩
  · obtain ⟨s, hs, -⟩ := Holds.start outstandingOps initOk
    exact ⟨s, .start hs⟩
  · obtain ⟨h, hl⟩ := Holds.run run
    have hsend := h.length_filter .send
    have hrecv := h.length_filter .recv
    have hnodup : s.places.Nodup := h.perm.nodup_iff.2 (allContexts_nodup outstandingOps)
    rw [List.filter_append, List.filter_eq_self.2 fun c hc => by simp [h.available_send c hc],
      List.filter_eq_nil_iff.2 fun c hc => by simp [h.abandoned_recv c hc]] at hsend
    rw [List.filter_append, List.filter_eq_nil_iff.2 fun c hc => by simp [h.available_send c hc],
      List.filter_eq_self.2 fun c hc => by simp [h.abandoned_recv c hc]] at hrecv
    refine ⟨by simpa [WorkerState.places] using h.perm, h.available_send, h.abandoned_recv,
      (List.nodup_append.1 hnodup).2.1.of_append_left, by simpa [Nat.add_comm] using hsend,
      by simpa [hl] using hrecv, fun entry outcome hd => ?_⟩
    obtain ⟨s', hs', -⟩ := h.handleEntry_some hd outcome
    exact ⟨s', hs'⟩

/-! ## Batches -/

/-- The kernel's promise about one batch that `GetQueuedCompletionStatusEx` returns in state
`s`: each entry is spurious or completes a request outstanding in `s`, and no request
completes twice. -/
def Dequeued (s : WorkerState) (batch : List (OverlappedEntry × PostOutcome)) : Prop :=
  (batch.filterMap (·.1.lpOverlapped)).Nodup ∧ ∀ step ∈ batch, Delivers s step.1

/-- The kernel's promise about the batches of a run from `s`: each one is dequeued in the
state the batches before it leave. -/
def DequeuedAll : WorkerState → List (List (OverlappedEntry × PostOutcome)) → Prop
  | _, [] => True
  | s, batch :: batches =>
    Dequeued s batch ∧ ∀ s', handleBatch s batch = some s' → DequeuedAll s' batches

/-- After its first entry is handled, the rest of a dequeued batch is still delivered: the
other requests it completes are still outstanding. -/
theorem Dequeued.tail {entry : OverlappedEntry} {outcome : PostOutcome}
    {batch : List (OverlappedEntry × PostOutcome)} (hd : Dequeued s ((entry, outcome) :: batch))
    (h : handleEntry s entry outcome = some s') : Dequeued s' batch := by
  obtain ⟨hnodup, hdel⟩ := hd
  cases he : entry.lpOverlapped with
  | none =>
    have hs : s' = s := by
      unfold handleEntry at h
      rw [he] at h
      exact (Option.some.inj h).symm
    subst hs
    simp only [List.filterMap_cons, he] at hnodup
    exact ⟨hnodup, fun step hs => hdel step (List.mem_cons_of_mem _ hs)⟩
  | some c =>
    simp only [List.filterMap_cons, he, List.nodup_cons] at hnodup
    refine ⟨hnodup.2, fun step hs => ?_⟩
    have hstep := hdel step (List.mem_cons_of_mem _ hs)
    unfold Delivers at hstep ⊢
    cases hc : step.1.lpOverlapped with
    | none => trivial
    | some c' =>
      rw [hc] at hstep
      refine handleEntry_outstanding h hstep fun heq => hnodup.1 ?_
      rw [Option.some.inj (he.symm.trans heq)]
      exact List.mem_filterMap.2 ⟨step, hs, hc⟩

/-- A batch dequeued in a state of a run is handled without undefined behaviour, and handling
it extends the run by its entries. -/
theorem handleBatch_run {initOk : Nat → Bool} {trace batch : List (OverlappedEntry × PostOutcome)}
    (run : Run n initOk trace s) (hd : Dequeued s batch) :
    ∃ s', handleBatch s batch = some s' ∧ Run n initOk (trace ++ batch) s' := by
  induction batch generalizing trace s with
  | nil => exact ⟨s, rfl, by simpa using run⟩
  | cons step batch ih =>
    obtain ⟨entry, outcome⟩ := step
    have hdel := hd.2 _ (List.mem_cons_self _ _)
    obtain ⟨s1, h1, -⟩ := (Holds.run run).1.handleEntry_some hdel outcome
    obtain ⟨s', h', run'⟩ := ih (run.entry hdel h1) (hd.tail h1)
    refine ⟨s', ?_, by simpa using run'⟩
    simp only [handleBatch, List.foldlM_cons] at h' ⊢
    rw [h1]
    exact h'

theorem foldlM_handleBatch_run {initOk : Nat → Bool} {trace : List (OverlappedEntry × PostOutcome)}
    {batches : List (List (OverlappedEntry × PostOutcome))} (run : Run n initOk trace s)
    (hd : DequeuedAll s batches) :
    ∃ s', batches.foldlM handleBatch s = some s' ∧ Run n initOk (trace ++ batches.flatten) s' := by
  induction batches generalizing trace s with
  | nil => exact ⟨s, rfl, by simpa using run⟩
  | cons batch batches ih =>
    obtain ⟨s1, h1, run1⟩ := handleBatch_run run hd.1
    obtain ⟨s', h', run'⟩ := ih run1 (hd.2 s1 h1)
    exact ⟨s', by simp [h1, h'], by simpa using run'⟩

/-- `worker_thread_func` over batches the kernel dequeues as it promises runs without
undefined behaviour, and its entries, batch after batch, form a run. -/
theorem workerThreadFunc_run (n : Nat) (initOk : Nat → Bool)
    {batches : List (List (OverlappedEntry × PostOutcome))}
    (hd : ∀ s, startWorker n initOk = some s → DequeuedAll s batches) :
    ∃ s, workerThreadFunc n initOk batches = some s ∧ Run n initOk batches.flatten s := by
  obtain ⟨s0, h0, -⟩ := Holds.start n initOk
  obtain ⟨s, hs, run⟩ := foldlM_handleBatch_run (Run.start h0) (hd s0 h0)
  exact ⟨s, by simp [workerThreadFunc, h0, hs], by simpa using run⟩

end ShardedEcho
