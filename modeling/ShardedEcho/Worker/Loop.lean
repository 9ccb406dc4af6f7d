import Mathlib.Data.List.Perm.Basic

/-!
# The worker's completion loop

`worker_thread_func` of `src/server/main.cpp`: one worker allocates `OUTSTANDING_OPS`
receive contexts and as many send contexts, posts every receive, and then handles the
entries that `GetQueuedCompletionStatusEx` returns, batch after batch, in the order the
kernel returned them.

The model keeps the worker's own state (the free-list `available_send_contexts` and the four
counters of `worker_context`) together with the kernel's view of its socket (the requests
posted and not yet completed) and some ghost state that no code reads: the receive contexts
abandoned after a failed `post_recv`, and a tally of the receive completions that were not
echoed. `post_recv` and `post_send` live in `common/socket_utils.hpp`, which is not part of
the sources; their outcome is an input of every step, and their effect on the kernel is
modelled from the spec.

Counters are unbounded naturals; the `std::atomic<uint64_t>` the program reads holds their
residue modulo `2^64`, since `fetch_add` wraps.
-/

namespace ShardedEcho

/-! ## Data -/

/-- `io_operation_type`: the tag a posted context carries back in its completion. -/
inductive IoOperationType where
  | recv
  | send
  deriving DecidableEq, Repr

/-- An `io_context` of one worker, named by the pool that owns it (`recv_contexts` or
`send_contexts`) and its index there. `post_recv` and `post_send` tag a context with its
pool's operation before they submit it, so the tag is the pool. -/
structure IoContext where
  operation : IoOperationType
  index : Nat
  deriving DecidableEq, Repr

/-- One `OVERLAPPED_ENTRY` filled by `GetQueuedCompletionStatusEx`: the context of the
completed request (`none` for a null `lpOverlapped`) and the byte count. The completion key
is never read. -/
structure OverlappedEntry where
  lpOverlapped : Option IoContext
  dwNumberOfBytesTransferred : UInt32
  deriving DecidableEq, Repr

/-- What the `post_send` and `post_recv` calls made for one entry return. -/
structure PostOutcome where
  sendOk : Bool
  recvOk : Bool
  deriving DecidableEq, Repr

/-- The state of one worker and of its socket in the kernel. -/
structure WorkerState where
  /-- `available_send_contexts`, read from its back: the head is `back()`. -/
  availableSendContexts : List IoContext
  packetsReceived : Nat := 0
  packetsSent : Nat := 0
  bytesReceived : Nat := 0
  bytesSent : Nat := 0
  /-- The kernel's side: contexts whose posted request has not completed. -/
  outstanding : List IoContext := []
  /-- Ghost: receive contexts whose last `post_recv` failed. -/
  abandoned : List IoContext := []
  /-- Ghost: receive completions of zero bytes. -/
  zeroLength : Nat := 0
  /-- Ghost: receive completions dropped for want of a send context, and their bytes. -/
  dropped : Nat := 0
  droppedBytes : Nat := 0
  /-- Ghost: receive completions whose echo `post_send` failed, and their bytes. -/
  sendFailed : Nat := 0
  sendFailedBytes : Nat := 0
  deriving DecidableEq, Repr

/-! ## Posting -/

/-- Submitting `ctx` on the worker's socket, as the kernel sees it. Reusing the OVERLAPPED
of a request still outstanding is undefined (`none`); otherwise an accepted request becomes
outstanding, and a refused one leaves the state `refused`. -/
def WorkerState.submit (s : WorkerState) (ctx : IoContext) (ok : Bool) (refused : WorkerState) :
    Option WorkerState :=
  if ctx ∈ s.outstanding then none
  else some (if ok then { s with outstanding := ctx :: s.outstanding } else refused)

/-- Modelled from the spec: `post_recv` of `common/socket_utils.hpp` posts a receive and
reports whether the kernel took it. A refused receive is never retried: its context is
abandoned. -/
def postRecv (s : WorkerState) (ctx : IoContext) (ok : Bool) : Option WorkerState :=
  s.submit ctx ok { s with abandoned := ctx :: s.abandoned }

/-- Modelled from the spec: `post_send` of `common/socket_utils.hpp` posts the echo and
reports whether the kernel took it. -/
def postSend (s : WorkerState) (ctx : IoContext) (ok : Bool) : Option WorkerState :=
  s.submit ctx ok s

/-! ## The loop -/

/-- The first `n` contexts of one pool, in allocation order. -/
def allocateContexts (operation : IoOperationType) (n : Nat) : List IoContext :=
  (List.range n).map (IoContext.mk operation)

/-- Every context of a worker: its receive pool, then its send pool. -/
def allContexts (outstandingOps : Nat) : List IoContext :=
  allocateContexts .recv outstandingOps ++ allocateContexts .send outstandingOps

/-- The start of `worker_thread_func`: every send context is pushed on
`available_send_contexts` in turn, then every receive context is posted; `initOk i` is what
the initial `post_recv` of receive context `i` returns. -/
def startWorker (outstandingOps : Nat) (initOk : Nat → Bool) : Option WorkerState :=
  (allocateContexts .recv outstandingOps).foldlM (fun s ctx => postRecv s ctx (initOk ctx.index))
    { availableSendContexts := (allocateContexts .send outstandingOps).reverse }

/-- `post_send` of the echo through the popped `sendCtx`, and what the loop does with its
result: on success it counts the packet and its bytes as sent, on failure it pushes the
context back on the free-list. -/
def echo (s : WorkerState) (sendCtx : IoContext) (bytes : Nat) (ok : Bool) :
    Option WorkerState :=
  (postSend s sendCtx ok).map fun s =>
    if ok then
      { s with packetsSent := s.packetsSent + 1, bytesSent := s.bytesSent + bytes }
    else
      { s with availableSendContexts := sendCtx :: s.availableSendContexts,
               sendFailed := s.sendFailed + 1, sendFailedBytes := s.sendFailedBytes + bytes }

/-- The receive branch of the loop body once the receive counters are updated: echo a
non-empty datagram when a send context is free, drop it otherwise, and re-post the receive
on every path. -/
def handleRecv (s : WorkerState) (ioCtx : IoContext) (bytes : Nat) (outcome : PostOutcome) :
    Option WorkerState :=
  if bytes > 0 then
    match s.availableSendContexts with
    | [] =>
      postRecv { s with dropped := s.dropped + 1, droppedBytes := s.droppedBytes + bytes }
        ioCtx outcome.recvOk
    | sendCtx :: rest =>
      (echo { s with availableSendContexts := rest } sendCtx bytes outcome.sendOk).bind
        fun s => postRecv s ioCtx outcome.recvOk
  else
    postRecv { s with zeroLength := s.zeroLength + 1 } ioCtx outcome.recvOk

/-- One iteration of the `for` loop over the dequeued entries. The kernel hands the
completion to the worker when it is dequeued, so the context leaves `outstanding` first. -/
def handleEntry (s : WorkerState) (entry : OverlappedEntry) (outcome : PostOutcome) :
    Option WorkerState :=
  match entry.lpOverlapped with
  | none => some s
  | some ioCtx =>
    let s := { s with outstanding := s.outstanding.erase ioCtx }
    match ioCtx.operation with
    | .send => some { s with availableSendContexts := ioCtx :: s.availableSendContexts }
    | .recv =>
      let bytes := entry.dwNumberOfBytesTransferred.toNat
      handleRecv { s with packetsReceived := s.packetsReceived + 1,
                          bytesReceived := s.bytesReceived + bytes } ioCtx bytes outcome

/-- The entries of one successful `GetQueuedCompletionStatusEx`, handled in order. A
timeout, a failed dequeue and an empty batch all handle nothing. -/
def handleBatch (s : WorkerState) (batch : List (OverlappedEntry × PostOutcome)) :
    Option WorkerState :=
  batch.foldlM (fun s entry => handleEntry s entry.1 entry.2) s

/-- `worker_thread_func` up to the shutdown check after the given batches. -/
def workerThreadFunc (outstandingOps : Nat) (initOk : Nat → Bool)
    (batches : List (List (OverlappedEntry × PostOutcome))) : Option WorkerState :=
  (startWorker outstandingOps initOk).bind fun s => batches.foldlM handleBatch s

/-! ## Frames -/

section Frames

variable {s s' : WorkerState} {c : IoContext} {ok : Bool}

/-- A submit changes at most the kernel's view. -/
theorem WorkerState.submit_eq {refused : WorkerState} (h : s.submit c ok refused = some s') :
    s' = { s with outstanding := c :: s.outstanding } ∨ s' = refused := by
  unfold WorkerState.submit at h
  split at h
  · cases h
  · cases ok <;> simp_all [eq_comm]

/-- `post_recv` changes only the kernel's view and the ghost record of abandoned contexts. -/
theorem postRecv_frame (h : postRecv s c ok = some s') :
    ∃ outstanding abandoned, s' = { s with outstanding, abandoned } := by
  rcases WorkerState.submit_eq h with rfl | rfl
  · exact ⟨_, _, rfl⟩
  · exact ⟨_, _, rfl⟩

/-- `post_send` changes only the kernel's view. -/
theorem postSend_frame (h : postSend s c ok = some s') :
    ∃ outstanding, s' = { s with outstanding } := by
  rcases WorkerState.submit_eq h with rfl | rfl
  · exact ⟨_, rfl⟩
  · exact ⟨_, rfl⟩

/-- A submit keeps every request outstanding, when a refusal leaves the kernel's view as it is,
as it does for `post_recv` and `post_send`. -/
theorem WorkerState.submit_outstanding {refused : WorkerState}
    (h : s.submit c ok refused = some s') (hr : refused.outstanding = s.outstanding) :
    s.outstanding ⊆ s'.outstanding := by
  rcases WorkerState.submit_eq h with rfl | rfl
  · exact List.subset_cons_self _ _
  · exact hr ▸ List.Subset.refl _

theorem echo_outstanding {bytes : Nat} (h : echo s c bytes ok = some s') :
    s.outstanding ⊆ s'.outstanding := by
  obtain ⟨s2, hs, rfl⟩ := Option.map_eq_some'.1 h
  have hsub : s.outstanding ⊆ s2.outstanding := WorkerState.submit_outstanding hs rfl
  cases ok <;> exact hsub

theorem handleRecv_outstanding {bytes : Nat} {outcome : PostOutcome}
    (h : handleRecv s c bytes outcome = some s') : s.outstanding ⊆ s'.outstanding := by
  unfold handleRecv at h
  split at h
  · split at h
    · exact (WorkerState.submit_outstanding h rfl :)
    · obtain ⟨s2, he, hp⟩ := Option.bind_eq_some.1 h
      exact (echo_outstanding he).trans (WorkerState.submit_outstanding hp rfl)
  · exact (WorkerState.submit_outstanding h rfl :)

/-- Handling an entry leaves every other outstanding request outstanding: the loop posts,
and only the completion itself leaves the kernel. -/
theorem handleEntry_outstanding {entry : OverlappedEntry} {outcome : PostOutcome}
    (h : handleEntry s entry outcome = some s') (hc : c ∈ s.outstanding)
    (hne : entry.lpOverlapped ≠ some c) : c ∈ s'.outstanding := by
  unfold handleEntry at h
  cases he : entry.lpOverlapped with
  | none =>
    rw [he] at h
    cases h
    exact hc
  | some ioCtx =>
    rw [he] at h
    have hmem : c ∈ s.outstanding.erase ioCtx :=
      (List.mem_erase_of_ne fun heq => hne (by rw [he, heq])).2 hc
    dsimp only at h
    cases hop : ioCtx.operation with
    | send =>
      rw [hop] at h
      cases h
      exact hmem
    | recv =>
      rw [hop] at h
      exact handleRecv_outstanding h hmem

end Frames

/-! ## Runs -/

/-- The kernel's promise about a dequeued entry: it is spurious (a null `lpOverlapped`) or
the single completion of a request the worker has outstanding. -/
def Delivers (s : WorkerState) (entry : OverlappedEntry) : Prop :=
  match entry.lpOverlapped with
  | none => True
  | some ioCtx => ioCtx ∈ s.outstanding

/-- `Run outstandingOps initOk trace s`: after the start, the worker has handled the entries
of `trace` with the post outcomes recorded there, each one delivered by the kernel, and is
in state `s`. Every prefix of a run is a run, so a property of every `Run` holds after each
processed entry. -/
inductive Run (outstandingOps : Nat) (initOk : Nat → Bool) :
    List (OverlappedEntry × PostOutcome) → WorkerState → Prop
  | start {s : WorkerState} : startWorker outstandingOps initOk = some s →
      Run outstandingOps initOk [] s
  | entry {trace : List (OverlappedEntry × PostOutcome)} {s s' : WorkerState}
      {entry : OverlappedEntry} {outcome : PostOutcome} :
      Run outstandingOps initOk trace s → Delivers s entry →
      handleEntry s entry outcome = some s' →
      Run outstandingOps initOk (trace ++ [(entry, outcome)]) s'

end ShardedEcho
