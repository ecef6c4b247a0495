import VideoEditorOffloading.IperfMemory

/-! # Streams and intervals in memory

A stream owns its block, its buffer, its result, its timer and the list of its intervals. What is
done to a stream without addresses is done to these cells. -/
namespace IperfMemory

open Iperf OwnedCells

section Layouts

def intervalList : Layout (ℕ × IntervalResults) Block IntervalBlock where
  kind := intervalKind
  next := IntervalBlock.next
  address := Prod.fst
  cells i tail := {(i.1, .interval ⟨i.2, tail⟩)}
  linked i tail := ⟨⟨i.2, tail⟩, Multiset.mem_singleton_self _, rfl⟩

def protocolList : Layout (ℕ × Prot) Block ProtocolBlock where
  kind := protocolKind
  next := ProtocolBlock.protocols
  address := Prod.fst
  cells i tail := {(i.1, .protocol ⟨i.2, tail⟩)}
  linked i tail := ⟨⟨i.2, tail⟩, Multiset.mem_singleton_self _, rfl⟩

def lastAddress (intervals : List (ℕ × IntervalResults)) : ℕ :=
  (intervals.getLast?.map Prod.fst).getD 0

def optional (p : ℕ) (b : Block) : Cells Block := if p = 0 then 0 else {(p, b)}

structure PlacedStream where
  sp : ℕ
  settings : ℕ
  buffer : ℕ
  result : ℕ
  send_timer : ℕ
  intervals : List (ℕ × IntervalResults)
  stream : Stream
  recorded : intervals.map Prod.snd = stream.result.interval_results
  timed : stream.send_timer = decide (send_timer ≠ 0)

def PlacedStream.block (x : PlacedStream) (tail : ℕ) : StreamBlock where
  socket := x.stream.socket
  id := x.stream.id
  settings := x.settings
  result := x.result
  send_timer := x.send_timer
  buffer := x.buffer
  streams := tail

def PlacedStream.resultBlock (x : PlacedStream) : ResultBlock where
  bytes_received := x.stream.result.bytes_received
  bytes_sent := x.stream.result.bytes_sent
  bytes_received_this_interval := x.stream.result.bytes_received_this_interval
  bytes_sent_this_interval := x.stream.result.bytes_sent_this_interval
  start_time := x.stream.result.start_time
  end_time := x.stream.result.end_time
  interval_results := intervalList.first x.intervals 0
  last_interval_results := lastAddress x.intervals

def PlacedStream.parts (x : PlacedStream) : Cells Block :=
  {(x.buffer, .buffer x.stream.buffer)} + {(x.result, .result x.resultBlock)} +
    optional x.send_timer .timer + intervalList.segment x.intervals 0

def streamList : Layout PlacedStream Block StreamBlock where
  kind := streamKind
  next := StreamBlock.streams
  address := PlacedStream.sp
  cells x tail := {(x.sp, .stream (x.block tail))} + x.parts
  linked x tail := ⟨x.block tail, Multiset.mem_add.mpr (.inl (Multiset.mem_singleton_self _)), rfl⟩

def PlacedStream.others (x : PlacedStream) (tail : ℕ) : Cells Block :=
  {(x.sp, .stream (x.block tail))} + {(x.buffer, .buffer x.stream.buffer)} +
    optional x.send_timer .timer

theorem streamList_cells (x : PlacedStream) (tail : ℕ) :
    streamList.cells x tail = {(x.result, .result x.resultBlock)} +
      (intervalList.segment x.intervals 0 + x.others tail) := by
  simp only [streamList, PlacedStream.parts, PlacedStream.others]
  abel

end Layouts

section Streams

variable (A : Allocator Block) {x : PlacedStream} {tail : ℕ}

theorem spec_add_to_interval_list {rp : ℕ} {r : ResultBlock}
    {intervals : List (ℕ × IntervalResults)} (new : IntervalResults)
    (hfirst : r.interval_results = intervalList.first intervals 0)
    (hlast : r.last_interval_results = lastAddress intervals) :
    Spec ({(rp, .result r)} + intervalList.segment intervals 0) (add_to_interval_list A rp new)
      fun _ c' => ∃ ip, c' = {(rp, .result { r with
        interval_results := intervalList.first (intervals ++ [(ip, new)]) 0
        last_interval_results := ip })} +
        intervalList.segment (intervals ++ [(ip, new)]) 0 := by
  apply spec_malloc_bind A
  intro ip _
  apply spec_loadAs_bind (K := resultKind) (a := r) (by simp)
  rcases List.eq_nil_or_concat intervals with rfl | ⟨before, last, rfl⟩
  · rw [intervalList.first_nil] at hfirst
    rw [if_pos hfirst]
    apply (spec_update (K := resultKind) (a := r) (d := {(ip, .interval ⟨new, 0⟩)})
      (by rw [intervalList.segment_nil]; abel) _).mono
    rintro - c rfl
    exact ⟨ip, rfl⟩
  · rw [List.concat_eq_append] at hfirst hlast ⊢
    have hsegment : intervalList.segment (before ++ [last]) 0 =
        intervalList.segment before last.1 + {(last.1, .interval ⟨last.2, 0⟩)} := by
      rw [intervalList.segment_append]
      rfl
    have hlast' : r.last_interval_results = last.1 := by
      rw [hlast, lastAddress, List.getLast?_append]
      rfl
    apply spec_of_owned
    intro _ hnull
    have hne : r.interval_results ≠ 0 := by
      rw [hfirst, ne_eq, intervalList.first_eq_zero_iff ((Multiset.le_add_left _ _).trans
        (Multiset.le_add_left _ _)) hnull]
      exact List.append_ne_nil_of_right_ne_nil _ (List.cons_ne_nil _ _)
    rw [hsegment]
    rw [if_neg hne, hlast']
    apply spec_update_bind (K := intervalKind) (a := ⟨last.2, 0⟩)
      (d := {(ip, .interval ⟨new, 0⟩)} + {(rp, .result r)} +
        intervalList.segment before last.1) (by abel)
    apply (spec_update (K := resultKind) (a := r)
      (d := {(ip, .interval ⟨new, 0⟩)} + {(last.1, .interval ⟨last.2, ip⟩)} +
        intervalList.segment before last.1) (by abel) _).mono
    rintro - c rfl
    refine ⟨ip, ?_⟩
    have hfirst' : intervalList.first (before ++ [last] ++ [(ip, new)]) 0 =
        r.interval_results := by
      rw [hfirst, intervalList.first_append, intervalList.first_append,
        intervalList.first_append]
      rfl
    have hsegment' : intervalList.segment (before ++ [last] ++ [(ip, new)]) 0 =
        intervalList.segment before last.1 + {(last.1, .interval ⟨last.2, ip⟩)} +
          {(ip, .interval ⟨new, 0⟩)} := by
      rw [List.append_assoc, intervalList.segment_append, add_assoc]
      rfl
    rw [hfirst', hsegment']
    abel

/-- The cells of `x` are those of `stream` now. Neither its address nor its settings have moved. -/
def Changed (x : PlacedStream) (stream : Stream) (tail : ℕ) (c : Cells Block) : Prop :=
  ∃ x' : PlacedStream, x'.sp = x.sp ∧ x'.settings = x.settings ∧ x'.stream = stream ∧
    c = streamList.cells x' tail

theorem spec_updateResult {stream : Stream} {f : ResultBlock → ResultBlock}
    (hresult : ∀ h h', f x.resultBlock =
      PlacedStream.resultBlock
        ⟨x.sp, x.settings, x.buffer, x.result, x.send_timer, x.intervals, stream, h, h'⟩)
    (hsocket : stream.socket = x.stream.socket) (hid : stream.id = x.stream.id)
    (hbuffer : stream.buffer = x.stream.buffer)
    (hintervals : stream.result.interval_results = x.stream.result.interval_results)
    (htimer : stream.send_timer = x.stream.send_timer) :
    Spec (streamList.cells x tail) (update resultKind x.result f) fun _ =>
      Changed x stream tail := by
  apply (spec_update (K := resultKind) (a := x.resultBlock) (streamList_cells x tail) _).mono
  rintro - c rfl
  refine ⟨⟨x.sp, x.settings, x.buffer, x.result, x.send_timer, x.intervals, stream,
    x.recorded.trans hintervals.symm, htimer.trans x.timed⟩, rfl, rfl, rfl, ?_⟩
  rw [hresult (x.recorded.trans hintervals.symm) (htimer.trans x.timed)]
  simp only [streamList_cells, PlacedStream.others, PlacedStream.block, hsocket, hid, hbuffer]

def newInterval (sp : Stream) (d : Direction) (now : Timeval) : IntervalResults where
  bytes_transferred := sp.result.this_interval d
  interval_start_time :=
    if sp.result.interval_results.isEmpty then sp.result.start_time else sp.result.end_time
  interval_end_time := now

theorem interval_eq (d : Direction) (now : Timeval)
    (hfirst : intervalList.first x.intervals 0 = 0 ↔ x.intervals = []) :
    x.resultBlock.interval d now = newInterval x.stream d now := by
  have hempty : x.stream.result.interval_results.isEmpty = x.intervals.isEmpty := by
    rw [← x.recorded, List.isEmpty_map]
  rw [← List.isEmpty_iff] at hfirst
  rw [newInterval, hempty]
  cases d with
  | sends =>
    simp only [ResultBlock.interval, PlacedStream.resultBlock, hfirst, StreamResult.this_interval]
  | receives =>
    simp only [ResultBlock.interval, PlacedStream.resultBlock, hfirst, StreamResult.this_interval]

theorem lastAddress_append (intervals : List (ℕ × IntervalResults)) (i : ℕ × IntervalResults) :
    lastAddress (intervals ++ [i]) = i.1 := by
  rw [lastAddress, List.getLast?_append]
  rfl

theorem spec_statsPass (d : Direction) (now : Timeval) :
    Spec (streamList.cells x tail) (statsPass A d now x.sp) fun _ =>
      Changed x (x.stream.stats d now) tail := by
  rw [streamList_cells]
  apply spec_loadAs_bind (K := streamKind) (a := x.block tail) (by simp [PlacedStream.others])
  apply spec_loadAs_bind (K := resultKind) (a := x.resultBlock)
    (by simp [PlacedStream.block])
  apply spec_of_owned
  intro _ hnull
  have hfirst := intervalList.first_eq_zero_iff
    ((Multiset.le_add_right (intervalList.segment x.intervals 0) (x.others tail)).trans
      (Multiset.le_add_left _ _)) hnull
  rw [interval_eq d now hfirst]
  apply spec_update_bind (K := resultKind) (a := x.resultBlock) rfl
  rw [← add_assoc]
  apply ((spec_add_to_interval_list A (r := { x.resultBlock with end_time := now }) _ rfl
    rfl).frame (x.others tail)).bind
  rintro - c ⟨c, ⟨ip, rfl⟩, rfl⟩
  apply (spec_update (K := resultKind) (add_assoc _ _ _) _).mono
  rintro - c rfl
  have hrecorded : (x.intervals ++ [(ip, newInterval x.stream d now)]).map Prod.snd =
      (x.stream.stats d now).result.interval_results := by
    rw [List.map_append, x.recorded]
    rfl
  refine ⟨⟨x.sp, x.settings, x.buffer, x.result, x.send_timer, _, x.stream.stats d now, hrecorded,
    x.timed⟩, rfl, rfl, rfl, ?_⟩
  simp only [streamList_cells, PlacedStream.resultBlock, lastAddress_append]
  rfl

/-- What has been sent is counted, unless `Nwrite` has failed. -/
def sentBlock (result : Option ℤ) (sp : Stream) : Stream :=
  match result with
  | some result => if result < 0 then sp else sp.addSent result
  | none => sp

/-- The buffer is as long as the settings say. -/
theorem spec_iperf_tcp_send (result : ℤ) {settings : Settings} {d : Cells Block}
    (hsettings : (x.settings, .settings settings) ∈ d)
    (hfull : x.stream.buffer.length = settings.blksize) :
    Spec (streamList.cells x tail + d) (iperf_tcp_send result x.sp) fun _ c' =>
      ∃ e, Changed x (sentBlock (some result) x.stream) tail e ∧ c' = e + d := by
  apply spec_loadAs_bind (K := streamKind) (a := x.block tail) (by simp [streamList])
  apply spec_loadAs_bind (K := settingsKind) (a := settings)
    (Multiset.mem_add.mpr (.inr hsettings))
  apply spec_loadAs_bind (K := bufferKind) (a := x.stream.buffer)
    (by simp [streamList, PlacedStream.parts, PlacedStream.block])
  rw [if_neg hfull.not_lt]
  by_cases hresult : result < 0
  · rw [if_pos hresult]
    refine spec_pure ⟨_, ⟨x, rfl, rfl, ?_, rfl⟩, rfl⟩
    rw [sentBlock, if_pos hresult]
  · rw [if_neg hresult]
    have hupdate : Spec (streamList.cells x tail) (update resultKind x.result fun rp => { rp with
        bytes_sent := rp.bytes_sent + UInt64.ofInt result
        bytes_sent_this_interval := rp.bytes_sent_this_interval + UInt64.ofInt result }) fun _ =>
        Changed x (x.stream.addSent result) tail :=
      spec_updateResult (fun _ _ => rfl) rfl rfl rfl rfl rfl
    apply (hupdate.frame d).bind
    rintro - c hc
    apply spec_pure
    rw [sentBlock, if_neg hresult]
    exact hc

theorem spec_startTime (now : Timeval) :
    Spec (streamList.cells x tail) (do
      let s ← loadAs streamKind x.sp
      update resultKind s.result ({ · with start_time := now })) fun _ =>
      Changed x (x.stream.start now) tail := by
  apply spec_loadAs_bind (K := streamKind) (a := x.block tail) (by simp [streamList])
  exact spec_updateResult (fun _ _ => rfl) rfl rfl rfl rfl rfl

/-- The loop of `iperf_udp_init`. An old timer would be lost. -/
theorem spec_sendTimer (hnone : x.send_timer = 0) :
    Spec (streamList.cells x tail) (do
      let send_timer ← malloc A .timer
      update streamKind x.sp ({ · with send_timer })) fun _ =>
      Changed x { x.stream with send_timer := true } tail := by
  have hparts : streamList.cells x tail = {(x.sp, .stream (x.block tail))} +
      ({(x.buffer, .buffer x.stream.buffer)} + {(x.result, .result x.resultBlock)} +
        intervalList.segment x.intervals 0) := by
    simp only [streamList, PlacedStream.parts, optional, if_pos hnone, add_zero]
  rw [hparts]
  apply spec_malloc_bind A
  intro p hp
  rw [add_left_comm]
  apply (spec_update (K := streamKind) (a := x.block tail) rfl _).mono
  rintro - c rfl
  refine ⟨⟨x.sp, x.settings, x.buffer, x.result, p, x.intervals,
    { x.stream with send_timer := true }, x.recorded, (decide_eq_true hp).symm⟩, rfl, rfl, rfl, ?_⟩
  simp only [streamList, PlacedStream.parts, optional, if_neg hp]
  change _ = {(x.sp, Block.stream { x.block tail with send_timer := p })} +
    ({(x.buffer, Block.buffer x.stream.buffer)} + {(x.result, Block.result x.resultBlock)} +
      {(p, Block.timer)} + intervalList.segment x.intervals 0)
  abel

section Reports

variable {c : Cells Block}

theorem last_interval_mem (hle : streamList.cells x tail ≤ c)
    (hne : x.stream.result.interval_results ≠ []) :
    ∃ b : IntervalBlock, (lastAddress x.intervals, .interval b) ∈ c := by
  rcases List.eq_nil_or_concat x.intervals with hnil | ⟨before, last, hlast⟩
  · rw [← x.recorded, hnil] at hne
    exact absurd rfl hne
  · rw [List.concat_eq_append] at hlast
    refine ⟨⟨last.2, 0⟩, Multiset.mem_of_le hle ?_⟩
    rw [streamList_cells, hlast, lastAddress_append, intervalList.segment_append]
    simp [intervalList]

theorem spec_lastInterval (hle : streamList.cells x tail ≤ c)
    (hne : x.stream.result.interval_results ≠ []) :
    Spec c (lastInterval x.sp) fun _ c' => c' = c := by
  obtain ⟨b, hb⟩ := last_interval_mem hle hne
  apply spec_loadAs_bind (K := streamKind) (a := x.block tail)
    (Multiset.mem_of_le hle (by simp [streamList]))
  apply spec_loadAs_bind (K := resultKind) (a := x.resultBlock)
    (Multiset.mem_of_le hle (by simp [streamList_cells, PlacedStream.block]))
  apply spec_loadAs_bind (K := intervalKind) (a := b) hb
  exact spec_pure rfl

theorem spec_print_interval_results {test : ℕ} {t : TestBlock} {settings : Settings}
    (hle : streamList.cells x tail ≤ c) (hne : x.stream.result.interval_results ≠ [])
    (htest : (test, .test t) ∈ c) (hsettings : (t.settings, .settings settings) ∈ c) :
    Spec c (print_interval_results test x.sp) fun _ c' => c' = c := by
  apply spec_loadAs_bind (K := streamKind) (a := x.block tail)
    (Multiset.mem_of_le hle (by simp [streamList]))
  apply spec_loadAs_bind (K := resultKind) (a := x.resultBlock)
    (Multiset.mem_of_le hle (by simp [streamList_cells, PlacedStream.block]))
  by_cases hlast : x.resultBlock.last_interval_results = 0
  · rw [if_pos hlast]
    exact spec_pure rfl
  · rw [if_neg hlast]
    apply (spec_lastInterval hle hne).bind
    rintro - c rfl
    apply spec_loadAs_bind (K := testKind) (a := t) htest
    apply spec_loadAs_bind (K := settingsKind) (a := settings) hsettings
    exact spec_pure rfl

end Reports

theorem spec_iperf_free_stream :
    Spec (streamList.cells x tail) (iperf_free_stream x.sp) fun _ c' => c' = 0 := by
  have htimer : ∀ d : Cells Block, Spec (optional x.send_timer .timer + d) (free x.send_timer)
      fun _ c' => c' = d := by
    intro d
    by_cases h : x.send_timer = 0
    · rw [h, optional, if_pos rfl, zero_add]
      exact spec_free_null d
    · rw [optional, if_neg h]
      exact spec_free rfl
  apply spec_loadAs_bind (K := streamKind) (a := x.block tail) (by simp [streamList])
  apply spec_free_bind (p := x.buffer) (d := {(x.sp, .stream (x.block tail))} +
    {(x.result, .result x.resultBlock)} + optional x.send_timer .timer +
    intervalList.segment x.intervals 0) (by
      simp only [streamList, PlacedStream.parts]; abel)
  apply spec_loadAs_bind (K := resultKind) (a := x.resultBlock) (by simp [PlacedStream.block])
  rw [add_comm]
  apply (spec_freeEach intervalList (fun _ _ => rfl) (fun _ _ => rfl) x.intervals _).bind
  rintro - c rfl
  apply spec_free_bind (p := x.result) (b := .result x.resultBlock)
    (d := optional x.send_timer .timer + {(x.sp, .stream (x.block tail))}) (by abel)
  apply (htimer _).bind
  rintro - c rfl
  exact spec_free (add_zero _).symm

end Streams

end IperfMemory
