import VideoEditorOffloading.IperfSockets

/-! # The streams of the native bandwidth test

A stream counts the bytes of whole blocks, in total and since the last interval. The counters are
unsigned and have 64 bits. The interval list is a list; texts for the screen and `tcp_info` are left
out. Reals are exact numbers. -/
namespace Iperf

open SegmentedStreams

structure Timeval where
  tv_sec : ℤ
  tv_usec : ℤ
  deriving DecidableEq, Repr

/-- The absolute difference, in seconds. -/
def timeval_diff (tv0 tv1 : Timeval) : ℚ :=
  let time1 : ℚ := tv0.tv_sec + tv0.tv_usec / 1000000
  let time2 : ℚ := tv1.tv_sec + tv1.tv_usec / 1000000
  let time1 := time1 - time2
  if time1 < 0 then -time1 else time1

abbrev iperf_size_t := UInt64

structure IntervalResults where
  bytes_transferred : iperf_size_t
  interval_start_time : Timeval
  interval_end_time : Timeval
  deriving DecidableEq, Repr

structure StreamResult where
  bytes_received : iperf_size_t := 0
  bytes_sent : iperf_size_t := 0
  bytes_received_this_interval : iperf_size_t := 0
  bytes_sent_this_interval : iperf_size_t := 0
  start_time : Timeval := ⟨0, 0⟩
  end_time : Timeval := ⟨0, 0⟩
  interval_results : List IntervalResults := []
  deriving DecidableEq, Repr

structure Stream where
  socket : ℕ
  id : ℤ := 0
  result : StreamResult := {}
  /-- Whether there is a timer: `send_timer` is not NULL. -/
  send_timer : Bool := false
  /-- `blksize` bytes -/
  buffer : List UInt8
  packet_count : ℤ := 0
  jitter : ℚ := 0
  prev_transit : ℚ := 0
  outoforder_packets : ℤ := 0
  cnt_error : ℤ := 0
  deriving DecidableEq, Repr

/-- `role == 'c' && !reverse || role == 's' && reverse` -/
inductive Direction where
  | sends
  | receives
  deriving DecidableEq, Repr

section Blocks

def Stream.addSent (sp : Stream) (result : ℤ) : Stream :=
  { sp with result := { sp.result with
      bytes_sent := sp.result.bytes_sent + UInt64.ofInt result
      bytes_sent_this_interval := sp.result.bytes_sent_this_interval + UInt64.ofInt result } }

def Stream.addReceived (sp : Stream) (result : ℤ) : Stream :=
  { sp with result := { sp.result with
      bytes_received := sp.result.bytes_received + UInt64.ofInt result
      bytes_received_this_interval :=
        sp.result.bytes_received_this_interval + UInt64.ofInt result } }

def iperf_tcp_send (sp : Stream) (writes : Writes) : Except Stuck (Stream × ℤ) := do
  let w ← Nwrite .Ptcp sp.buffer writes
  if w.result < 0 then return (sp, -1)
  return (sp.addSent w.result, w.result)

def iperf_tcp_recv (sp : Stream) (reads : Reads) : Except Stuck (Stream × ℤ) := do
  let r ← Nread sp.buffer.length reads
  let sp := { sp with buffer := overlay r.buf sp.buffer }
  if r.result < 0 then return (sp, -1)
  return (sp.addReceived r.result, r.result)

end Blocks

section Lists

/-- The first stream gets 1, the n-th one n + 1. -/
def iperf_add_stream (streams : List Stream) (sp : Stream) : List Stream :=
  if streams.isEmpty then [{ sp with id := 1 }]
  else streams ++ [{ sp with id := streams.length + 2 }]

/-- What the counter of the test's direction holds since the last interval. -/
def StreamResult.this_interval (rp : StreamResult) : Direction → iperf_size_t
  | .sends => rp.bytes_sent_this_interval
  | .receives => rp.bytes_received_this_interval

def StreamResult.total (rp : StreamResult) : Direction → iperf_size_t
  | .sends => rp.bytes_sent
  | .receives => rp.bytes_received

/-- One pass of the loop of `iperf_stats_callback`; `now` is what `gettimeofday` says. -/
def Stream.stats (d : Direction) (now : Timeval) (sp : Stream) : Stream :=
  { sp with result := { sp.result with
      interval_results := sp.result.interval_results ++
        [⟨sp.result.this_interval d,
          if sp.result.interval_results.isEmpty then sp.result.start_time else sp.result.end_time,
          now⟩]
      end_time := now
      bytes_sent_this_interval := 0
      bytes_received_this_interval := 0 } }

def sum (f : StreamResult → iperf_size_t) (streams : List Stream) : iperf_size_t :=
  (streams.map fun sp => f sp.result).sum

end Lists

section Accounting

def StreamResult.reported (rp : StreamResult) : iperf_size_t :=
  (rp.interval_results.map (·.bytes_transferred)).sum

/-- Every byte of the total is in one interval, or in the present one. -/
def Accounted (d : Direction) (rp : StreamResult) : Prop :=
  rp.total d = rp.reported + rp.this_interval d

/-- Each interval starts where the one before it ends, and the last one ends at `end_time`. -/
structure Chained (rp : StreamResult) : Prop where
  next : rp.interval_results.IsChain fun a b => b.interval_start_time = a.interval_end_time
  last : ∀ ir ∈ rp.interval_results.getLast?, ir.interval_end_time = rp.end_time

variable {d : Direction} {sp sp' : Stream} {r : ℤ}

theorem ofInt_toNat (b : UInt64) : UInt64.ofInt b.toNat = b := by
  have hb := b.toNat_lt
  apply UInt64.toNat_inj.mp
  rw [UInt64.ofInt, UInt64.toNat_ofNat']
  omega

/-- A transfer: the same number of bytes for the total and the present interval. -/
structure Moved (d : Direction) (sp sp' : Stream) : Prop where
  id : sp'.id = sp.id
  socket : sp'.socket = sp.socket
  buffer : sp'.buffer.length = sp.buffer.length
  intervals : sp'.result.interval_results = sp.result.interval_results
  start_time : sp'.result.start_time = sp.result.start_time
  end_time : sp'.result.end_time = sp.result.end_time
  counted : ∃ k, sp'.result.total d = sp.result.total d + k ∧
    sp'.result.this_interval d = sp.result.this_interval d + k

theorem Moved.accounted (h : Moved d sp sp') (ha : Accounted d sp.result) :
    Accounted d sp'.result := by
  obtain ⟨k, htotal, hthis⟩ := h.counted
  rw [Accounted] at ha ⊢
  rw [htotal, hthis, ha, StreamResult.reported, StreamResult.reported, h.intervals, add_assoc]

theorem Moved.chained (h : Moved d sp sp') (hc : Chained sp.result) : Chained sp'.result := by
  constructor
  · rw [h.intervals]
    exact hc.next
  · rw [h.intervals, h.end_time]
    exact hc.last

theorem moved_refl (d : Direction) (sp : Stream) : Moved d sp sp :=
  ⟨rfl, rfl, rfl, rfl, rfl, rfl, 0, by rw [add_zero], by rw [add_zero]⟩

theorem moved_addSent (sp : Stream) (r : ℤ) : Moved .sends sp (sp.addSent r) :=
  ⟨rfl, rfl, rfl, rfl, rfl, rfl, _, rfl, rfl⟩

theorem moved_addReceived (sp : Stream) (r : ℤ) : Moved .receives sp (sp.addReceived r) :=
  ⟨rfl, rfl, rfl, rfl, rfl, rfl, _, rfl, rfl⟩

theorem stats_accounted (now : Timeval) (h : Accounted d sp.result) :
    Accounted d (sp.stats d now).result := by
  have htotal : (sp.stats d now).result.total d = sp.result.total d := by
    cases d <;> rfl
  have hthis : (sp.stats d now).result.this_interval d = 0 := by
    cases d <;> rfl
  have hreported : (sp.stats d now).result.reported =
      sp.result.reported + sp.result.this_interval d := by
    simp only [StreamResult.reported, Stream.stats, List.map_append, List.map_cons, List.map_nil,
      List.sum_append, List.sum_singleton]
  rw [Accounted, htotal, hthis, hreported, add_zero]
  exact h

theorem stats_chained (d : Direction) (now : Timeval) (h : Chained sp.result) :
    Chained (sp.stats d now).result := by
  constructor
  · rw [Stream.stats]
    refine List.isChain_append.mpr ⟨h.next, List.isChain_singleton _, ?_⟩
    intro a ha b hb
    obtain rfl := Option.some.inj hb
    have hne : sp.result.interval_results.isEmpty = false := by
      cases hl : sp.result.interval_results with
      | nil =>
        rw [hl] at ha
        cases ha
      | cons => rfl
    simp only [hne]
    exact (h.last a ha).symm
  · intro ir hir
    simp only [Stream.stats, List.getLast?_append, List.getLast?_singleton, Option.some_or,
      Option.mem_some_iff] at hir
    rw [← hir]
    rfl

theorem iperf_tcp_send_spec {writes : Writes} (h : iperf_tcp_send sp writes = .ok (sp', r)) :
    (r = -1 ∧ sp' = sp) ∨ (r = sp.buffer.length ∧ sp' = sp.addSent r) := by
  rw [iperf_tcp_send] at h
  cases hw : Nwrite .Ptcp sp.buffer writes with
  | error e =>
    rw [hw] at h
    cases h
  | ok w =>
    rw [hw] at h
    rcases Nwrite_spec hw with ⟨hr, -⟩ | ⟨hr, -⟩
    · right
      change (if w.result < 0 then _ else _) = _ at h
      rw [if_neg (by omega)] at h
      cases h
      exact ⟨hr, rfl⟩
    · left
      change (if w.result < 0 then _ else _) = _ at h
      rw [if_pos (by omega)] at h
      cases h
      exact ⟨rfl, rfl⟩

end Accounting

end Iperf
