import ShardedEcho.Worker.Loop
import Mathlib.Tactic.Ring

/-!
# The worker's counters

Every receive completion adds one packet and its bytes to the receive counters, and exactly
one of: one packet and the same bytes to the send counters (echoed), a zero-length tally, a
drop for want of a send context, or a failed `post_send`. So along every run

  `packets_received = packets_sent + Z + D + F`,
  `bytes_received = bytes_sent + bytes(D) + bytes(F)`

over unbounded naturals, and modulo `2^64` for the wrapping `uint64` counters
(`worker_counters_balanced`).
-/

namespace ShardedEcho

variable {s s' : WorkerState} {c : IoContext} {ok : Bool}

/-! ## Balance -/

/-- The counter identities, over unbounded naturals. -/
structure CountersBalanced (s : WorkerState) : Prop where
  packets : s.packetsReceived = s.packetsSent + s.zeroLength + s.dropped + s.sendFailed
  bytes : s.bytesReceived = s.bytesSent + s.droppedBytes + s.sendFailedBytes

/-- The receive branch accounts for its one packet and its bytes exactly once, and leaves
the receive counters as they are. -/
theorem handleRecv_accounts {outcome : PostOutcome} {bytes : Nat}
    (h : handleRecv s c bytes outcome = some s') :
    s'.packetsSent + s'.zeroLength + s'.dropped + s'.sendFailed =
        s.packetsSent + s.zeroLength + s.dropped + s.sendFailed + 1 ∧
      s'.bytesSent + s'.droppedBytes + s'.sendFailedBytes =
        s.bytesSent + s.droppedBytes + s.sendFailedBytes + bytes ∧
      s'.packetsReceived = s.packetsReceived ∧ s'.bytesReceived = s.bytesReceived := by
  obtain ⟨sendOk, recvOk⟩ := outcome
  unfold handleRecv at h
  split at h
  · split at h
    · obtain ⟨_, _, rfl⟩ := postRecv_frame h
      exact ⟨by simp only; omega, by simp only; omega, rfl, rfl⟩
    · obtain ⟨s3, he, hp⟩ := Option.bind_eq_some.1 h
      obtain ⟨_, _, rfl⟩ := postRecv_frame hp
      obtain ⟨s2, hs, rfl⟩ := Option.map_eq_some'.1 he
      obtain ⟨_, rfl⟩ := postSend_frame hs
      cases sendOk
      · exact ⟨by simp only [Bool.false_eq_true, if_false]; omega,
          by simp only [Bool.false_eq_true, if_false]; omega, rfl, rfl⟩
      · exact ⟨by simp only [if_true]; omega, by simp only [if_true]; omega, rfl, rfl⟩
  · obtain ⟨_, _, rfl⟩ := postRecv_frame h
    exact ⟨by simp only; omega, by simp only; omega, rfl, rfl⟩

/-- Handling one entry keeps the counters balanced. -/
theorem CountersBalanced.step {entry : OverlappedEntry} {outcome : PostOutcome}
    (hb : CountersBalanced s) (h : handleEntry s entry outcome = some s') :
    CountersBalanced s' := by
  unfold handleEntry at h
  split at h
  · cases h
    exact hb
  · split at h
    · cases h
      exact ⟨hb.1, hb.2⟩
    · obtain ⟨hp, hy, hr, hbr⟩ := handleRecv_accounts h
      simp only at hp hy hr hbr
      exact ⟨by have := hb.1; omega, by have := hb.2; omega⟩

/-- The start of the worker counts nothing. -/
theorem CountersBalanced.start {outstandingOps : Nat} {initOk : Nat → Bool}
    (h : startWorker outstandingOps initOk = some s) : CountersBalanced s := by
  suffices ∀ (cs : List IoContext) (s0 : WorkerState), CountersBalanced s0 →
      cs.foldlM (fun s ctx => postRecv s ctx (initOk ctx.index)) s0 = some s →
      CountersBalanced s from this _ _ ⟨rfl, rfl⟩ h
  intro cs
  induction cs with
  | nil => intro s0 hb h; cases h; exact hb
  | cons c cs ih =>
    intro s0 hb h
    obtain ⟨s1, hp, hrest⟩ := Option.bind_eq_some.1 h
    obtain ⟨_, _, rfl⟩ := postRecv_frame hp
    refine ih _ ?_ hrest
    exact ⟨hb.1, hb.2⟩

/-- Every state of a run has its counters balanced. -/
theorem Run.countersBalanced {outstandingOps : Nat} {initOk : Nat → Bool}
    {trace : List (OverlappedEntry × PostOutcome)} (run : Run outstandingOps initOk trace s) :
    CountersBalanced s := by
  induction run with
  | start h => exact CountersBalanced.start h
  | entry _ _ h ih => exact ih.step h

/-- After every processed entry of every run, each receive completion is counted as echoed,
empty, dropped or failed, exactly once: the identities hold over unbounded naturals, hence
modulo `2^64` for the `uint64` counters, and as long as the receive counters have not
wrapped the send counters are below them. -/
theorem worker_counters_balanced {outstandingOps : Nat} {initOk : Nat → Bool}
    {trace : List (OverlappedEntry × PostOutcome)} (run : Run outstandingOps initOk trace s) :
    s.packetsReceived = s.packetsSent + s.zeroLength + s.dropped + s.sendFailed ∧
      s.bytesReceived = s.bytesSent + s.droppedBytes + s.sendFailedBytes ∧
      s.packetsReceived % 2 ^ 64 =
        (s.packetsSent % 2 ^ 64 + s.zeroLength + s.dropped + s.sendFailed) % 2 ^ 64 ∧
      s.bytesReceived % 2 ^ 64 =
        (s.bytesSent % 2 ^ 64 + s.droppedBytes + s.sendFailedBytes) % 2 ^ 64 ∧
      (s.packetsReceived < 2 ^ 64 → s.packetsSent % 2 ^ 64 ≤ s.packetsReceived % 2 ^ 64) ∧
      (s.bytesReceived < 2 ^ 64 → s.bytesSent % 2 ^ 64 ≤ s.bytesReceived % 2 ^ 64) := by
  have hb : CountersBalanced s := by
    induction run with
    | start h => exact CountersBalanced.start h
    | entry _ _ h ih => exact ih.step h
  obtain ⟨hp, hy⟩ := hb
  refine ⟨hp, hy, by simp only [hp, Nat.add_assoc, Nat.mod_add_mod],
    by simp only [hy, Nat.add_assoc, Nat.mod_add_mod], fun hlt => ?_, fun hlt => ?_⟩
  · rw [Nat.mod_eq_of_lt hlt, Nat.mod_eq_of_lt (by omega)]; omega
  · rw [Nat.mod_eq_of_lt hlt, Nat.mod_eq_of_lt (by omega)]; omega

/-- One datagram of five bytes echoed by a worker with one context of each kind. -/
theorem worker_counters_one_echo :
    ∃ s, Run 1 (fun _ => true) [(⟨some ⟨.recv, 0⟩, 5⟩, ⟨true, true⟩)] s ∧ s.bytesSent = 5 ∧
      s.bytesSent % 2 ^ 64 ≤ s.bytesReceived % 2 ^ 64 :=
  have start : Run 1 (fun _ => true) []
      { availableSendContexts := [⟨.send, 0⟩], outstanding := [⟨.recv, 0⟩] } := .start rfl
  have run : Run 1 (fun _ => true) [(⟨some ⟨.recv, 0⟩, 5⟩, ⟨true, true⟩)]
      { availableSendContexts := [], packetsReceived := 1, packetsSent := 1, bytesReceived := 5,
        bytesSent := 5, outstanding := [⟨.recv, 0⟩, ⟨.send, 0⟩] } :=
    start.entry (List.mem_cons_self _ _) rfl
  ⟨_, run, rfl, (worker_counters_balanced run).2.2.2.2.2 (by decide)⟩

end ShardedEcho
