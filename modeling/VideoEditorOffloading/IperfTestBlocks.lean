import VideoEditorOffloading.IperfStreamBlocks

/-! # A test in memory

Where the blocks of a test lie, and what the functions on a whole test do to them. -/
namespace IperfMemory

open Iperf OwnedCells

section Tests

structure Placement where
  settings : ℕ
  tcp : ℕ
  udp : ℕ
  server_hostname : ℕ
  bind_address : ℕ
  timer : ℕ
  stats_timer : ℕ
  reporter_timer : ℕ
  hostname : List UInt8
  bound : List UInt8
  streams : List PlacedStream

def Placement.protocol (x : Placement) : Prot → ℕ
  | .Ptcp => x.tcp
  | .Pudp => x.udp

def Placement.block (x : Placement) (t : Test) : TestBlock where
  role := some t.role
  reverse := t.reverse
  protocol := x.protocol t.protocol
  server_hostname := x.server_hostname
  bind_address := x.bind_address
  stats_interval := t.stats_interval
  reporter_interval := t.reporter_interval
  timer := x.timer
  stats_timer := x.stats_timer
  reporter_timer := x.reporter_timer
  num_streams := t.num_streams
  streams := streamList.first x.streams 0
  protocols := x.tcp
  settings := x.settings

/-- The blocks that a test always has, and its texts. -/
def Placement.base (x : Placement) (t : Test) : Cells Block :=
  {(x.settings, .settings t.settings)} + {(x.tcp, .protocol ⟨.Ptcp, x.udp⟩)} +
    {(x.udp, .protocol ⟨.Pudp, 0⟩)} + optional x.server_hostname (.text x.hostname) +
    optional x.bind_address (.text x.bound)

def Placement.timers (x : Placement) : Cells Block :=
  optional x.timer .timer + optional x.stats_timer .timer + optional x.reporter_timer .timer

def Placement.parts (x : Placement) (t : Test) : Cells Block := x.base t + x.timers

def Placement.cells (x : Placement) (test : ℕ) (t : Test) : Cells Block :=
  streamList.segment x.streams 0 + ({(test, .test (x.block t))} + x.parts t)

/-- The addresses are those of this test, which has been given the name of a server and no address
of its own. -/
structure Stores (x : Placement) (t : Test) : Prop where
  named : x.server_hostname ≠ 0
  unbound : x.bind_address = 0
  streams : x.streams.map (·.stream) = t.streams
  settings : ∀ y ∈ x.streams, y.settings = x.settings
  full : ∀ sp ∈ t.streams, sp.buffer.length = t.settings.blksize
  timer : t.timer = decide (x.timer ≠ 0)
  stats_timer : t.stats_timer = decide (x.stats_timer ≠ 0)
  reporter_timer : t.reporter_timer = decide (x.reporter_timer ≠ 0)

/-- The cells are those of a test at this address. -/
def Holds (test : ℕ) (t : Test) (c : Cells Block) : Prop := ∃ x, Stores x t ∧ c = x.cells test t

variable (A : Allocator Block) {x : Placement} {t : Test} {test : ℕ} {d : Cells Block}

/-- What is in no block may change. -/
theorem Holds.congr {t' : Test} {c : Cells Block} (h : Holds test t c)
    (hsame : t' = { t with
      bytes_sent := t'.bytes_sent
      total_sent := t'.total_sent
      total_recv := t'.total_recv
      total_time := t'.total_time
      remote_cpu_util := t'.remote_cpu_util }) : Holds test t' c := by
  obtain ⟨x, hx, rfl⟩ := h
  rw [hsame]
  exact ⟨x, ⟨hx.named, hx.unbound, hx.streams, hx.settings, hx.full, hx.timer, hx.stats_timer,
    hx.reporter_timer⟩, rfl⟩

theorem Placement.direction (x : Placement) (t : Test) : (x.block t).direction = t.direction := by
  simp only [TestBlock.direction, Placement.block, Test.direction]
  cases t.role <;> cases t.reverse <;> rfl

theorem Stores.changed (h : Stores x t) {items : List PlacedStream} {f : ℕ → Stream → Stream}
    (hstreams : items.map (·.stream) = (x.streams.map (·.stream)).mapIdx f)
    (hsettings : items.map (·.settings) = x.streams.map (·.settings))
    (hbuffer : ∀ i sp, (f i sp).buffer.length = sp.buffer.length) :
    Stores { x with streams := items } { t with streams := t.streams.mapIdx f } := by
  rw [h.streams] at hstreams
  refine ⟨h.named, h.unbound, hstreams, ?_, ?_, h.timer, h.stats_timer, h.reporter_timer⟩
  · intro y hy
    have hmem : y.settings ∈ x.streams.map (·.settings) := by
      rw [← hsettings]
      exact List.mem_map_of_mem hy
    obtain ⟨z, hz, hzy⟩ := List.mem_map.mp hmem
    exact hzy.symm.trans (h.settings z hz)
  · intro sp hsp
    obtain ⟨i, hi, rfl⟩ := List.mem_mapIdx.mp hsp
    rw [hbuffer]
    exact h.full _ (List.getElem_mem hi)

/-- What the body does with one stream, the loop does with each. -/
theorem spec_forStreams {body : ℕ → ℕ → Program Block Unit} {f : ℕ → Stream → Stream}
    {items : List PlacedStream}
    (hbody : ∀ i y tail, y ∈ items → Spec (streamList.cells y tail + d) (body i y.sp)
      fun _ c' => ∃ e, Changed y (f i y.stream) tail e ∧ c' = e + d) :
    Spec (streamList.segment items 0 + d) (forStreams (streamList.first items 0) body) fun _ c' =>
      ∃ items', items'.map (·.stream) = (items.map (·.stream)).mapIdx f ∧
        items'.map (·.settings) = items.map (·.settings) ∧
        streamList.first items' 0 = streamList.first items 0 ∧
        c' = streamList.segment items' 0 + d := by
  let inv (done rest : List PlacedStream) (i : ℕ) : Prop :=
    ∃ before, items = before ++ rest ∧ i = before.length ∧
      done.map (·.stream) = (before.map (·.stream)).mapIdx f ∧
      done.map (·.settings) = before.map (·.settings)
  apply Spec.bind (spec_forEach streamList (fun _ => d) inv ?_ (s := 0) ⟨[], rfl, rfl, rfl, rfl⟩)
  · rintro i c ⟨items', ⟨before, hbefore, -, hstreams, hsettings⟩, hfirst, rfl⟩
    rw [List.append_nil] at hbefore
    rw [← hbefore] at hstreams hsettings
    exact spec_pure ⟨items', hstreams, hsettings, hfirst, rfl⟩
  · rintro done y rest i tail ⟨before, hitems, rfl, hstreams, hsettings⟩
    have hmem : y ∈ items := by
      rw [hitems]
      exact List.mem_append_right _ List.mem_cons_self
    apply (hbody _ y tail hmem).bind
    rintro - c ⟨e, ⟨y', hsp, hset, hstream, rfl⟩, rfl⟩
    refine spec_pure ⟨y', ⟨before ++ [y], ?_, ?_, ?_, ?_⟩, hsp, rfl⟩
    · rw [hitems, List.append_assoc, List.singleton_append]
    · rw [List.length_append, List.length_singleton]
    · rw [List.map_append, List.map_append, List.mapIdx_append, hstreams]
      simp [hstream]
    · rw [List.map_append, List.map_append, hsettings, List.map_singleton, List.map_singleton, hset]

/-- A loop over the streams of a test. -/
theorem spec_forStreams_test {body : ℕ → ℕ → Program Block Unit} {f : ℕ → Stream → Stream}
    (h : Stores x t) (hbuffer : ∀ i sp, (f i sp).buffer.length = sp.buffer.length)
    (hbody : ∀ i y tail, y ∈ x.streams → Spec (streamList.cells y tail +
      ({(test, .test (x.block t))} + x.parts t)) (body i y.sp)
      fun _ c' => ∃ e, Changed y (f i y.stream) tail e ∧
        c' = e + ({(test, .test (x.block t))} + x.parts t)) :
    Spec (x.cells test t) (forStreams (x.block t).streams body) fun _ c' =>
      ∃ items, Stores { x with streams := items } { t with streams := t.streams.mapIdx f } ∧
        c' = Placement.cells { x with streams := items } test
          { t with streams := t.streams.mapIdx f } := by
  apply (spec_forStreams hbody).mono
  rintro - c ⟨items, hstreams, hsettings, hfirst, rfl⟩
  refine ⟨items, h.changed hstreams hsettings hbuffer, ?_⟩
  simp only [Placement.cells, Placement.block, Placement.parts, Placement.base,
    Placement.timers, Placement.protocol, hfirst]

theorem spec_stats (times : ℕ → Timeval) (h : Stores x t) :
    Spec (x.cells test t) (iperf_stats_callback A test times) fun _ c' =>
      Holds test { t with streams := t.streams.mapIdx fun i sp => sp.stats t.direction (times i) }
        c' := by
  apply spec_loadAs_bind (K := testKind) (a := x.block t) (by simp [Placement.cells])
  rw [x.direction]
  apply (spec_forStreams_test h (f := fun i sp => sp.stats t.direction (times i)) (fun _ _ => rfl)
    fun i y tail _ => (spec_statsPass A t.direction (times i)).frame _).mono
  rintro - c ⟨items, hitems, rfl⟩
  exact ⟨_, hitems, rfl⟩

theorem sentBlock_same (result : Option ℤ) (sp : Stream) :
    (sentBlock result sp).socket = sp.socket ∧ (sentBlock result sp).buffer = sp.buffer ∧
      (sentBlock result sp).send_timer = sp.send_timer := by
  cases result with
  | none => exact ⟨rfl, rfl, rfl⟩
  | some result =>
    rw [sentBlock]
    split <;> exact ⟨rfl, rfl, rfl⟩

theorem spec_iperf_send (results : List (Option ℤ)) (h : Stores x t) :
    Spec (x.cells test t) (iperf_send test results) fun _ c' =>
      Holds test { t with
        streams := t.streams.mapIdx fun i sp => sentBlock (results.getD i none) sp } c' := by
  apply spec_loadAs_bind (K := testKind) (a := x.block t) (by simp [Placement.cells])
  apply (spec_forStreams_test h (f := fun i sp => sentBlock (results.getD i none) sp)
    (fun i sp => congrArg List.length (sentBlock_same _ sp).2.1) ?_).mono
  · rintro - c ⟨items, hitems, rfl⟩
    exact ⟨_, hitems, rfl⟩
  · intro i y tail hy
    cases results.getD i none with
    | none => exact spec_pure ⟨_, ⟨y, rfl, rfl, rfl, rfl⟩, rfl⟩
    | some result =>
      have hfull : y.stream.buffer.length = t.settings.blksize := by
        apply h.full
        rw [← h.streams]
        exact List.mem_map_of_mem hy
      have hsettings : (y.settings, Block.settings t.settings) ∈
          {(test, Block.test (x.block t))} + x.parts t := by
        simp [h.settings y hy, Placement.parts, Placement.base]
      apply (spec_iperf_tcp_send result hsettings hfull).bind
      rintro - c hc
      exact spec_pure hc

theorem spec_iperf_print_intermediate (h : Stores x t)
    (hintervals : ∀ sp ∈ t.streams, sp.result.interval_results ≠ []) :
    Spec (x.cells test t) (iperf_print_intermediate test) fun _ c' => c' = x.cells test t := by
  have hrecorded : ∀ y ∈ x.streams, y.stream.result.interval_results ≠ [] := by
    intro y hy
    apply hintervals
    rw [← h.streams]
    exact List.mem_map_of_mem hy
  apply spec_loadAs_bind (K := testKind) (a := x.block t) (by simp [Placement.cells])
  let inv (done rest : List PlacedStream) (bytes : iperf_size_t) : Prop :=
    done ++ rest = x.streams ∧ (done = [] → bytes = 0)
  apply (spec_forEach streamList (fun _ => {(test, .test (x.block t))} + x.parts t) inv ?_
    (s := 0) ⟨List.nil_append _, fun _ => rfl⟩).bind
  · rintro bytes c ⟨items, ⟨hitems, hbytes⟩, -, rfl⟩
    rw [List.append_nil] at hitems
    subst hitems
    by_cases hsum : bytes ≠ 0 ∧ 1 < (x.block t).num_streams
    · rw [if_pos hsum]
      cases hstreams : x.streams with
      | nil => exact absurd (hbytes hstreams) hsum.1
      | cons y rest =>
        have hfirst : (x.block t).streams = y.sp := by
          rw [Placement.block, hstreams]
          rfl
        have hle : streamList.cells y (streamList.first rest 0) ≤
            streamList.segment (y :: rest) 0 + ({(test, .test (x.block t))} + x.parts t) := by
          rw [streamList.segment_cons, add_assoc]
          exact Multiset.le_add_right _ _
        rw [hfirst]
        apply (spec_lastInterval hle (hrecorded y (by simp [hstreams]))).bind
        rintro - c rfl
        apply spec_loadAs_bind (K := settingsKind) (a := t.settings)
          (by simp [Placement.parts, Placement.base, Placement.block])
        apply spec_pure
        rw [Placement.cells, hstreams]
    · rw [if_neg hsum]
      exact spec_pure rfl
  · rintro done y rest bytes tail ⟨hitems, -⟩
    have hne : y.stream.result.interval_results ≠ [] := by
      apply hrecorded
      rw [← hitems]
      exact List.mem_append_right _ List.mem_cons_self
    have hle : streamList.cells y tail ≤ streamList.cells y tail +
        ({(test, .test (x.block t))} + x.parts t) := Multiset.le_add_right _ _
    have htest : (test, Block.test (x.block t)) ∈ streamList.cells y tail +
        ({(test, .test (x.block t))} + x.parts t) := by simp
    have hsettings : ((x.block t).settings, Block.settings t.settings) ∈
        streamList.cells y tail + ({(test, .test (x.block t))} + x.parts t) := by
      simp [Placement.parts, Placement.base, Placement.block]
    apply (spec_print_interval_results hle hne htest hsettings).bind
    rintro - c rfl
    apply (spec_lastInterval hle hne).bind
    rintro ip c rfl
    refine spec_pure ⟨y, ⟨?_, fun hnil => ?_⟩, rfl, rfl⟩
    · rw [← hitems, List.append_assoc, List.singleton_append]
    · exact absurd hnil (List.append_ne_nil_of_right_ne_nil _ (List.cons_ne_nil _ _))

structure Untimed (t : Test) : Prop where
  timer : t.timer = false
  stats_timer : t.stats_timer = false
  reporter_timer : t.reporter_timer = false
  streams : ∀ sp ∈ t.streams, sp.send_timer = false

theorem spec_setTimer (condition : Bool) (assign : ℕ → TestBlock → TestBlock) (b : TestBlock)
    (hnull : assign 0 b = b) :
    Spec ({(test, .test b)} + d) (setTimer A test condition assign) fun _ c' =>
      ∃ p, condition = decide (p ≠ 0) ∧
        c' = {(test, .test (assign p b))} + (optional p .timer + d) := by
  cases condition with
  | false =>
    apply spec_pure
    refine ⟨0, rfl, ?_⟩
    rw [hnull, optional, if_pos rfl, zero_add]
  | true =>
    apply spec_malloc_bind A
    intro p hp
    rw [add_left_comm]
    apply (spec_update (K := testKind) rfl _).mono
    rintro - c rfl
    refine ⟨p, (decide_eq_true hp).symm, ?_⟩
    rw [optional, if_neg hp]

def protocolInitialized (t : Test) : Test :=
  match t.protocol with
  | .Ptcp => t
  | .Pudp => { t with streams := t.streams.map ({ · with send_timer := true }) }

theorem send_timer_eq_zero (h : Stores x t) (huntimed : Untimed t) {y : PlacedStream}
    (hy : y ∈ x.streams) : y.send_timer = 0 := by
  have hmem : y.stream ∈ t.streams := by
    rw [← h.streams]
    exact List.mem_map_of_mem hy
  have htimed := y.timed
  rw [huntimed.streams _ hmem] at htimed
  simpa using htimed.symm

theorem spec_protocolInit (h : Stores x t) (huntimed : Untimed t)
    (hdelay : t.protocol = .Pudp → ∃ delay, sendDelay t.settings = .ok delay) :
    Spec (x.cells test t) (protocolInit A test t.protocol) fun _ c' =>
      ∃ items, Stores { x with streams := items } (protocolInitialized t) ∧
        streamList.first items 0 = streamList.first x.streams 0 ∧
        c' = streamList.segment items 0 + ({(test, .test (x.block t))} + x.parts t) := by
  cases hprot : t.protocol with
  | Ptcp =>
    apply spec_pure
    have ht : protocolInitialized t = t := by
      simp only [protocolInitialized, hprot]
    rw [ht]
    exact ⟨x.streams, h, rfl, rfl⟩
  | Pudp =>
    obtain ⟨delay, hdelay⟩ := hdelay hprot
    apply spec_loadAs_bind (K := testKind) (a := x.block t) (by simp [Placement.cells])
    apply spec_loadAs_bind (K := settingsKind) (a := t.settings)
      (by simp [Placement.cells, Placement.parts, Placement.base, Placement.block])
    rw [hdelay]
    apply (spec_forStreams (f := fun _ sp => { sp with send_timer := true })
      fun i y tail hy => (spec_sendTimer A (send_timer_eq_zero h huntimed hy)).frame _).mono
    rintro - c ⟨items, hstreams, hsettings, hfirst, rfl⟩
    have hsame : t.streams.map ({ · with send_timer := true }) =
        t.streams.mapIdx fun _ sp => { sp with send_timer := true } := by
      apply List.ext_getElem
      · simp
      · intro i hi hi'
        simp
    have ht : protocolInitialized t =
        { t with streams := t.streams.mapIdx fun _ sp => { sp with send_timer := true } } := by
      simp only [protocolInitialized, hprot, hsame]
    rw [ht]
    exact ⟨items, h.changed hstreams hsettings fun _ _ => rfl, hfirst, rfl⟩

theorem Placement.base_le (x : Placement) (test : ℕ) (t : Test) : x.base t ≤ x.cells test t :=
  (Multiset.le_add_right _ _).trans ((Multiset.le_add_left _ _).trans (Multiset.le_add_left _ _))

theorem Placement.settings_mem (x : Placement) (t : Test) :
    (x.settings, Block.settings t.settings) ∈ x.base t := by
  simp [Placement.base]

theorem Placement.protocol_mem (x : Placement) (t : Test) :
    ∃ b : ProtocolBlock, b.id = t.protocol ∧
      (x.protocol t.protocol, Block.protocol b) ∈ x.base t := by
  cases hprot : t.protocol with
  | Ptcp => exact ⟨⟨.Ptcp, x.udp⟩, rfl, by simp [Placement.base, Placement.protocol]⟩
  | Pudp => exact ⟨⟨.Pudp, 0⟩, rfl, by simp [Placement.base, Placement.protocol]⟩


theorem mapIdx_same (streams : List Stream) : (streams.mapIdx fun _ sp => sp) = streams := by
  apply List.ext_getElem
  · simp
  · intro i hi hi'
    simp

/-- The loop of `iperf_print_results`. -/
theorem spec_printTotals (h : Stores x t) :
    Spec (x.cells test t) (forStreams (x.block t).streams fun _ sp => do
      let s ← loadAs streamKind sp
      let rp ← loadAs resultKind s.result
      let _ ← loadAs protocolKind (x.block t).protocol
      if 0 < rp.bytes_sent ∨ 0 < rp.bytes_received then
        let _ ← loadAs settingsKind (x.block t).settings
      else pure ()) fun _ c' => ∃ items, Stores { x with streams := items } t ∧
        c' = Placement.cells { x with streams := items } test t := by
  obtain ⟨prot, -, hprot⟩ := x.protocol_mem t
  have hbase : ∀ {b : ℕ × Block} {e : Cells Block}, b ∈ x.base t →
      b ∈ e + ({(test, .test (x.block t))} + x.parts t) := by
    intro b e hb
    simp [Placement.parts, hb]
  have hsame : { t with streams := t.streams.mapIdx fun _ sp => sp } = t := by
    rw [mapIdx_same]
  apply (spec_forStreams_test (f := fun _ sp => sp) h (fun _ _ => rfl) ?_).mono
  · rintro - c hitems
    rwa [hsame] at hitems
  · intro i y tail hy
    apply spec_loadAs_bind (K := streamKind) (a := y.block tail) (by simp [streamList])
    apply spec_loadAs_bind (K := resultKind) (a := y.resultBlock)
      (by simp [streamList_cells, PlacedStream.block])
    apply spec_loadAs_bind (K := protocolKind) (a := prot) (hbase hprot)
    by_cases hbytes : 0 < y.resultBlock.bytes_sent ∨ 0 < y.resultBlock.bytes_received
    · rw [if_pos hbytes]
      apply spec_loadAs_bind (K := settingsKind) (a := t.settings) (hbase (x.settings_mem t))
      exact spec_pure ⟨_, ⟨y, rfl, rfl, rfl, rfl⟩, rfl⟩
    · rw [if_neg hbytes]
      exact spec_pure ⟨_, ⟨y, rfl, rfl, rfl, rfl⟩, rfl⟩

/-- What the getters return is in no block here. -/
theorem spec_iperf_print_results (h : Stores x t) (hne : t.streams ≠ []) :
    Spec (x.cells test t) (iperf_print_results test) fun _ c' => Holds test t c' := by
  obtain ⟨prot, -, hprot⟩ := x.protocol_mem t
  cases hstreams : x.streams with
  | nil =>
    rw [← h.streams, hstreams] at hne
    exact absurd rfl hne
  | cons y rest =>
    have hfirst : (x.block t).streams = y.sp := by
      rw [Placement.block, hstreams]
      rfl
    have hle : streamList.cells y (streamList.first rest 0) ≤ x.cells test t := by
      rw [Placement.cells, hstreams, streamList.segment_cons, add_assoc]
      exact Multiset.le_add_right _ _
    apply spec_loadAs_bind (K := testKind) (a := x.block t) (by simp [Placement.cells])
    apply spec_loadAs_bind (K := streamKind) (a := y.block (streamList.first rest 0))
    · rw [hfirst]
      exact Multiset.mem_of_le hle (by simp [streamList])
    apply spec_loadAs_bind (K := resultKind) (a := y.resultBlock)
      (Multiset.mem_of_le hle (by simp [streamList_cells, PlacedStream.block]))
    apply (spec_printTotals h).bind
    rintro - c ⟨items, hitems, rfl⟩
    by_cases hseveral : 1 < (x.block t).num_streams
    · rw [if_pos hseveral]
      have hle' := Placement.base_le { x with streams := items } test t
      apply spec_loadAs_bind (K := settingsKind) (a := t.settings)
        (Multiset.mem_of_le hle' (x.settings_mem t))
      apply spec_loadAs_bind (K := protocolKind) (a := prot) (Multiset.mem_of_le hle' hprot)
      exact spec_pure ⟨_, hitems, rfl⟩
    · rw [if_neg hseveral]
      exact spec_pure ⟨_, hitems, rfl⟩

theorem spec_report (last : Bool) (h : Stores x t)
    (hintervals : ∀ sp ∈ t.streams, sp.result.interval_results ≠ [])
    (hne : last = true → t.streams ≠ []) :
    Spec (x.cells test t) (iperf_reporter_callback test last) fun _ c' => Holds test t c' := by
  apply (spec_iperf_print_intermediate h hintervals).bind
  rintro - c rfl
  cases last with
  | false => exact spec_pure ⟨x, h, rfl⟩
  | true => exact spec_iperf_print_results h (hne rfl)

def initialized (t : Test) (start_times : ℕ → Timeval) : Test :=
  { protocolInitialized t with
    timer := t.timer || t.settings.bytes == 0
    stats_timer := t.stats_timer || t.stats_interval != 0
    reporter_timer := t.reporter_timer || t.reporter_interval != 0
    streams := (protocolInitialized t).streams.mapIdx fun i sp => sp.start (start_times i) }

theorem spec_init (start_times : ℕ → Timeval) (h : Stores x t) (huntimed : Untimed t)
    (hdelay : t.protocol = .Pudp → ∃ delay, sendDelay t.settings = .ok delay) :
    Spec (x.cells test t) (iperf_init_test A test start_times) fun _ c' =>
      Holds test (initialized t start_times) c' := by
  obtain ⟨htimer, hstats, hreporter, -⟩ := id huntimed
  have hnone : x.timer = 0 ∧ x.stats_timer = 0 ∧ x.reporter_timer = 0 := by
    have h1 := h.timer
    have h2 := h.stats_timer
    have h3 := h.reporter_timer
    rw [htimer] at h1
    rw [hstats] at h2
    rw [hreporter] at h3
    simpa using And.intro h1.symm (And.intro h2.symm h3.symm)
  have hparts : x.parts t = x.base t := by
    simp only [Placement.parts, Placement.timers, hnone, optional, if_true, add_zero]
  obtain ⟨prot, hprot, hmem⟩ := x.protocol_mem t
  replace hmem := Multiset.mem_of_le (x.base_le test t) hmem
  apply spec_loadAs_bind (K := testKind) (a := x.block t) (by simp [Placement.cells])
  apply spec_loadAs_bind (K := protocolKind) (a := prot) hmem
  rw [hprot]
  apply (spec_protocolInit A h huntimed hdelay).bind
  rintro - c ⟨items, hstores, hfirst, rfl⟩
  apply spec_loadAs_bind (K := settingsKind) (a := t.settings)
    (by simp [Placement.parts, Placement.base, Placement.block])
  rw [hparts, add_left_comm]
  apply (spec_setTimer A (t.settings.bytes == 0) (fun timer b => { b with timer }) (x.block t)
    (by simp [Placement.block, hnone])).bind
  rintro - c ⟨p₁, hp₁, rfl⟩
  apply (spec_setTimer A (t.stats_interval != 0) (fun stats_timer b => { b with stats_timer }) _
    (by simp [Placement.block, hnone])).bind
  rintro - c ⟨p₂, hp₂, rfl⟩
  apply (spec_setTimer A (t.reporter_interval != 0)
    (fun reporter_timer b => { b with reporter_timer }) _
    (by simp [Placement.block, hnone])).bind
  rintro - c ⟨p₃, hp₃, rfl⟩
  have hcells : ∀ b : Block, {(test, b)} + (optional p₃ .timer + (optional p₂ .timer +
      (optional p₁ .timer + (streamList.segment items 0 + x.base t)))) =
      streamList.segment items 0 + ({(test, b)} + (x.base t + (optional p₁ .timer +
        optional p₂ .timer + optional p₃ .timer))) := by
    intro b
    abel
  rw [hcells]
  have hblock : (x.block t).streams = streamList.first items 0 := hfirst.symm
  rw [hblock]
  apply (spec_forStreams (f := fun i sp => sp.start (start_times i))
    fun i y tail _ => (spec_startTime (start_times i)).frame _).mono
  rintro - c ⟨items', hstreams, hsettings, hfirst', rfl⟩
  have hchanged := hstores.changed hstreams hsettings fun _ _ => rfl
  refine ⟨{ x with streams := items', timer := p₁, stats_timer := p₂, reporter_timer := p₃ },
    ⟨h.named, h.unbound, hchanged.streams, hchanged.settings, hchanged.full, ?_, ?_, ?_⟩, ?_⟩
  · rw [← hp₁]
    simp [initialized, htimer]
  · rw [← hp₂]
    simp [initialized, hstats]
  · rw [← hp₃]
    simp [initialized, hreporter]
  · have hsame : (protocolInitialized t).role = t.role ∧
        (protocolInitialized t).reverse = t.reverse ∧
        (protocolInitialized t).protocol = t.protocol ∧
        (protocolInitialized t).settings = t.settings ∧
        (protocolInitialized t).stats_interval = t.stats_interval ∧
        (protocolInitialized t).reporter_interval = t.reporter_interval ∧
        (protocolInitialized t).num_streams = t.num_streams := by
      cases hprotocol : t.protocol with
      | Ptcp => simp [protocolInitialized, hprotocol]
      | Pudp => simp [protocolInitialized, hprotocol]
    obtain ⟨hrole, hreverse, hprotocol, hsettings, hstats', hreporter', hnum⟩ := hsame
    simp only [Placement.cells, Placement.block, Placement.parts, Placement.base,
      Placement.timers, Placement.protocol, initialized, hrole, hreverse, hprotocol, hsettings,
      hstats', hreporter', hnum, hfirst', hfirst]

def PlacedStream.withId (y : PlacedStream) (id : ℤ) : PlacedStream :=
  ⟨y.sp, y.settings, y.buffer, y.result, y.send_timer, y.intervals, { y.stream with id },
    y.recorded, y.timed⟩

theorem cells_withId (y : PlacedStream) (id : ℤ) (tail : ℕ) :
    streamList.cells (y.withId id) tail =
      {(y.sp, .stream { y.block tail with id })} + y.parts := rfl

theorem holds_appended {y : PlacedStream} (h : Stores x t) {c : Cells Block} (id : ℤ)
    (hsettings : y.settings = x.settings) (hfull : y.stream.buffer.length = t.settings.blksize)
    (hid : id = if t.streams.isEmpty then 1 else (t.streams.length : ℤ) + 2)
    (hc : c = streamList.segment (x.streams ++ [y.withId id]) 0 +
      ({(test, .test { x.block t with streams := streamList.first (x.streams ++ [y]) 0 })} +
        x.parts t)) :
    Holds test { t with streams := Iperf.iperf_add_stream t.streams y.stream } c := by
  have hstreams : x.streams.map (·.stream) ++ [{ y.stream with id }] =
      Iperf.iperf_add_stream t.streams y.stream := by
    rw [h.streams, Iperf.iperf_add_stream, hid]
    cases t.streams with
    | nil => rfl
    | cons => rfl
  refine ⟨{ x with streams := x.streams ++ [y.withId id] },
    ⟨h.named, h.unbound, ?_, ?_, ?_, h.timer, h.stats_timer, h.reporter_timer⟩, ?_⟩
  · rw [← hstreams, List.map_append]
    rfl
  · exact List.forall_mem_append.mpr ⟨h.settings, List.forall_mem_singleton.mpr hsettings⟩
  · change ∀ sp ∈ Iperf.iperf_add_stream t.streams y.stream, _
    rw [← hstreams, h.streams]
    exact List.forall_mem_append.mpr ⟨h.full, List.forall_mem_singleton.mpr hfull⟩
  · have hfirst : streamList.first (x.streams ++ [y]) 0 =
        streamList.first (x.streams ++ [y.withId id]) 0 := by
      rw [streamList.first_append, streamList.first_append]
      rfl
    rw [hc, hfirst]
    rfl

theorem spec_iperf_add_stream {y : PlacedStream} (h : Stores x t)
    (hsettings : y.settings = x.settings) (hfull : y.stream.buffer.length = t.settings.blksize) :
    Spec (x.cells test t + streamList.cells y 0) (iperf_add_stream test y.sp) fun _ c' =>
      Holds test { t with streams := Iperf.iperf_add_stream t.streams y.stream } c' := by
  have hy : streamList.cells y 0 = {(y.sp, .stream (y.block 0))} + y.parts := rfl
  have hlength : x.streams.length = t.streams.length := by
    rw [← h.streams, List.length_map]
  apply spec_loadAs_bind (K := testKind) (a := x.block t) (by simp [Placement.cells])
  rcases List.eq_nil_or_concat x.streams with hnil | ⟨before, last, hlast⟩
  · have hfirst : (x.block t).streams = 0 := by
      simp only [Placement.block, hnil, Layout.first_nil]
    have hempty : t.streams = [] := by
      rwa [hnil, List.length_nil, eq_comm, List.length_eq_zero_iff] at hlength
    rw [if_pos hfirst, hfirst, Placement.cells, hnil, streamList.segment_nil, zero_add, hy]
    apply spec_update_bind (K := streamKind) (a := y.block 0)
      (d := {(test, .test (x.block t))} + x.parts t + y.parts) (by abel)
    apply (spec_update (K := testKind) (a := x.block t)
      (d := {(y.sp, .stream (y.block 0))} + x.parts t + y.parts) ?_ _).bind
    · rintro - c rfl
      apply (spec_update (K := streamKind) (a := y.block 0)
        (d := {(test, .test { x.block t with streams := y.sp })} + x.parts t + y.parts)
        ?_ _).mono
      · rintro - c rfl
        apply holds_appended h 1 hsettings hfull
        · rw [hempty]
          rfl
        · rw [hnil, List.nil_append, List.nil_append, streamList.segment_cons, cells_withId]
          simp only [Layout.first_cons, Layout.segment_nil, Layout.first_nil, add_zero]
          change _ = {(y.sp, Block.stream { y.block 0 with id := 1 })} + y.parts +
            ({(test, Block.test { x.block t with streams := y.sp })} + x.parts t)
          abel
      · abel
    · change {(y.sp, Block.stream (y.block 0))} + _ = _
      abel
  · rw [List.concat_eq_append] at hlast
    have hsegment : ∀ tail, streamList.segment (before ++ [last]) tail =
        streamList.segment before last.sp + ({(last.sp, .stream (last.block tail))} +
          last.parts) := by
      intro tail
      rw [streamList.segment_append, streamList.segment_cons, streamList.segment_nil, add_zero]
      rfl
    apply spec_of_owned
    intro _ hnull
    have hne : (x.block t).streams ≠ 0 := by
      have hle : streamList.segment x.streams 0 ≤ x.cells test t + streamList.cells y 0 :=
        (Multiset.le_add_right _ _).trans (Multiset.le_add_right _ _)
      have hiff := streamList.first_eq_zero_iff hle hnull
      rw [hlast] at hiff
      rw [Placement.block, hlast, ne_eq, hiff]
      exact List.append_ne_nil_of_right_ne_nil _ (List.cons_ne_nil _ _)
    rw [if_neg hne, Placement.cells, add_assoc]
    -- the loop changes nothing
    let inv (done rest : List PlacedStream) (s : ℕ × ℤ) : Prop :=
      done ++ rest = x.streams ∧ s.2 = done.length + 2 ∧ ∀ z ∈ done.getLast?, s.1 = z.sp
    apply (spec_forEach streamList
      (fun _ => {(test, .test (x.block t))} + x.parts t + streamList.cells y 0) inv ?_
      (s := (0, 2)) ⟨List.nil_append _, rfl, ?_⟩).bind
    · rintro ⟨prev, i⟩ c ⟨items, ⟨hitems, hi, hprev⟩, -, rfl⟩
      rw [List.append_nil] at hitems
      subst hitems
      rw [hlast] at hi hprev
      have hprev : prev = last.sp := hprev last (by simp)
      subst hprev
      rw [hlast, hsegment, hy]
      apply spec_loadAs_bind (K := streamKind) (a := last.block 0) (by simp)
      apply spec_update_bind (K := streamKind) (a := y.block 0)
        (d := {(last.sp, .stream (last.block 0))} + streamList.segment before last.sp +
          last.parts + {(test, .test (x.block t))} + x.parts t + y.parts) (by abel)
      apply (spec_update (K := streamKind) (a := last.block 0)
        (d := {(y.sp, .stream (y.block 0))} + streamList.segment before last.sp +
          last.parts + {(test, .test (x.block t))} + x.parts t + y.parts) ?_ _).bind
      · rintro - c rfl
        apply (spec_update (K := streamKind) (a := y.block 0)
          (d := {(last.sp, .stream (last.block y.sp))} + streamList.segment before last.sp +
            last.parts + {(test, .test (x.block t))} + x.parts t + y.parts) ?_ _).mono
        · rintro - c rfl
          apply holds_appended h i hsettings hfull
          · have hne' : t.streams.isEmpty = false := by
              rw [List.isEmpty_eq_false_iff, ← List.length_pos_iff, ← hlength, hlast]
              simp
            rw [hne', ← hlength, hlast]
            exact hi
          · have hfirst : streamList.first (before ++ [last] ++ [y]) 0 =
                (x.block t).streams := by
              rw [Placement.block, hlast, streamList.first_append, streamList.first_append,
                streamList.first_append]
              rfl
            rw [hlast, hfirst, streamList.segment_append, streamList.segment_cons,
              streamList.segment_nil, add_zero, cells_withId]
            change _ = streamList.segment (before ++ [last]) y.sp + _ + _
            rw [hsegment]
            change {(y.sp, Block.stream { y.block 0 with id := i })} + _ = _ +
              ({(y.sp, Block.stream { y.block 0 with id := i })} + y.parts) +
                ({(test, Block.test (x.block t))} + x.parts t)
            abel
        · change {(last.sp, Block.stream (last.block y.sp))} + _ = _
          abel
      · change {(y.sp, Block.stream (y.block 0))} + _ = _
        abel
    · rintro done z rest ⟨prev, i⟩ tail ⟨hitems, hi, -⟩
      refine spec_pure ⟨z, ⟨?_, ?_, ?_⟩, rfl, rfl⟩
      · rw [← hitems, List.append_assoc, List.singleton_append]
      · change i = _ at hi
        change i + 1 = _
        rw [hi, List.length_append, List.length_singleton]
        push_cast
        ring
      · intro z' hz'
        rw [List.getLast?_append, List.getLast?_singleton, Option.some_or, Option.mem_some_iff]
          at hz'
        rw [← hz']
        rfl
    · intro z hz
      cases hz

def newStream (t : Test) (s : ℕ) (contents : ℕ → UInt8) : Stream where
  socket := s
  buffer := (List.range t.settings.blksize).map contents

/-- After a failure of `iperf_init_stream` the three blocks of the stream are lost. -/
theorem spec_iperf_new_stream (s : ℕ) (contents : ℕ → UInt8) (init : Bool) (h : Stores x t) :
    Spec (x.cells test t) (iperf_new_stream A test s contents init) fun sp c' =>
      if init then
        sp ≠ 0 ∧ Holds test { t with
          streams := Iperf.iperf_add_stream t.streams (newStream t s contents) } c'
      else sp = 0 ∧ ∃ lost, Multiset.card lost = 3 ∧ c' = x.cells test t + lost := by
  obtain ⟨prot, -, hmem⟩ := x.protocol_mem t
  replace hmem := Multiset.mem_of_le (x.base_le test t) hmem
  have hsettings := Multiset.mem_of_le (x.base_le test t) (x.settings_mem t)
  apply spec_loadAs_bind (K := testKind) (a := x.block t) (by simp [Placement.cells])
  apply spec_malloc_bind A
  intro sp hsp
  apply spec_loadAs_bind (K := settingsKind) (a := t.settings)
    (Multiset.mem_add.mpr (.inr hsettings))
  apply spec_malloc_bind A
  intro buffer _
  rw [add_left_comm]
  apply spec_update_bind (K := streamKind) (a := {}) rfl
  apply spec_malloc_bind A
  intro result _
  rw [add_left_comm]
  apply spec_update_bind (K := streamKind) rfl
  apply spec_loadAs_bind (K := protocolKind) (a := prot) (by simp [Placement.block, hmem])
  let y : PlacedStream :=
    ⟨sp, x.settings, buffer, result, 0, [], newStream t s contents, rfl, rfl⟩
  have hcells : {(sp, Block.stream (y.block 0))} + ({(result, Block.result {})} +
      ({(buffer, Block.buffer (newStream t s contents).buffer)} + x.cells test t)) =
      x.cells test t + streamList.cells y 0 := by
    change _ = x.cells test t + ({(sp, Block.stream (y.block 0))} +
      ({(buffer, Block.buffer (newStream t s contents).buffer)} + {(result, Block.result {})} +
        0 + 0))
    abel
  change Spec ({(sp, Block.stream (y.block 0))} + ({(result, Block.result {})} +
    ({(buffer, Block.buffer (newStream t s contents).buffer)} + x.cells test t))) _ _
  rw [hcells]
  cases init with
  | true =>
    apply (spec_iperf_add_stream (y := y) h rfl (by simp [y, newStream])).bind
    rintro - c hc
    exact spec_pure ⟨hsp, hc⟩
  | false =>
    refine spec_pure ⟨rfl, _, ?_, rfl⟩
    rfl

theorem spec_free_optional (p : ℕ) (b : Block) (d : Cells Block) :
    Spec (optional p b + d) (free p) fun _ c' => c' = d := by
  by_cases h : p = 0
  · rw [h, optional, if_pos rfl, zero_add]
    exact spec_free_null d
  · rw [optional, if_neg h]
    exact spec_free rfl

theorem spec_freeProtocols (b : TestBlock) (items : List (ℕ × Prot))
    (hfirst : b.protocols = protocolList.first items 0) :
    Spec ({(test, .test b)} + protocolList.segment items 0) (loopBlocks (fun _ => do
      let t ← loadAs testKind test
      if t.protocols = 0 then return none
      else
        let b ← loadAs protocolKind t.protocols
        update testKind test ({ · with protocols := b.protocols })
        free t.protocols
        return some ()) ()) fun _ c' => ∃ b', c' = {(test, .test b')} := by
  have hcard : items.length ≤
      Multiset.card ({(test, Block.test b)} + protocolList.segment items 0) := by
    rw [Multiset.card_add]
    exact (protocolList.length_le_card items 0).trans (Nat.le_add_left _ _)
  apply spec_loopBlocks (fun rest _ c => ∃ b : TestBlock,
    b.protocols = protocolList.first rest 0 ∧
    c = {(test, .test b)} + protocolList.segment rest 0)
    (fun _ c => ∃ b', c = {(test, .test b')}) ?_ ?_ items ⟨b, hfirst, rfl⟩ hcard
  · rintro i rest - c ⟨b, hb, rfl⟩
    apply spec_loadAs_bind (K := testKind) (a := b) (by simp)
    apply spec_of_owned
    intro _ hnull
    have hne : b.protocols ≠ 0 := by
      rw [hb, ne_eq, protocolList.first_eq_zero_iff (Multiset.le_add_left _ _) hnull]
      exact List.cons_ne_nil i rest
    rw [if_neg hne, hb]
    apply spec_loadAs_bind (K := protocolKind) (a := ⟨i.2, protocolList.first rest 0⟩)
      (by simp [protocolList])
    apply spec_update_bind (K := testKind) (a := b) rfl
    rw [protocolList.segment_cons, add_left_comm]
    apply spec_free_bind (p := i.1) rfl
    exact spec_pure ⟨(), rfl, _, rfl, rfl⟩
  · rintro - c ⟨b, hb, rfl⟩
    apply spec_loadAs_bind (K := testKind) (a := b) (by simp)
    rw [protocolList.first_nil] at hb
    rw [if_pos hb]
    exact spec_pure ⟨rfl, b, by rw [protocolList.segment_nil, add_zero]⟩

theorem spec_iperf_free_test (x : Placement) (t : Test) :
    Spec (x.cells test t) (iperf_free_test test) fun _ c' => c' = 0 := by
  have hcard : x.streams.length ≤ Multiset.card (x.cells test t) := by
    rw [Placement.cells, Multiset.card_add]
    exact (streamList.length_le_card x.streams 0).trans (Nat.le_add_right _ _)
  -- the streams, from the first one on
  apply (spec_loopBlocks (fun rest _ c => c = streamList.segment rest 0 +
    ({(test, .test { x.block t with streams := streamList.first rest 0 })} + x.parts t))
    (fun _ c => c = {(test, .test { x.block t with streams := 0 })} + x.parts t) ?_ ?_
    x.streams rfl hcard).bind
  · rintro - c rfl
    apply spec_loadAs_bind (K := testKind) (a := { x.block t with streams := 0 }) (by simp)
    let protocols : Cells Block := {(test, .test { x.block t with streams := 0 })} +
      protocolList.segment [(x.tcp, .Ptcp), (x.udp, .Pudp)] 0
    have hparts : {(test, Block.test { x.block t with streams := 0 })} + x.parts t =
        optional x.server_hostname (.text x.hostname) +
          (optional x.bind_address (.text x.bound) +
          ({(x.settings, .settings t.settings)} + (optional x.timer .timer +
          (optional x.stats_timer .timer + (optional x.reporter_timer .timer +
            protocols))))) := by
      simp only [protocols, Layout.segment_cons, Layout.segment_nil, Layout.first_cons,
        Layout.first_nil, add_zero, protocolList, Placement.parts, Placement.base,
        Placement.timers]
      abel
    rw [hparts]
    apply (spec_free_optional _ _ _).bind
    rintro - c rfl
    apply (spec_free_optional _ _ _).bind
    rintro - c rfl
    apply spec_free_bind rfl
    apply (spec_free_optional _ _ _).bind
    rintro - c rfl
    apply (spec_free_optional _ _ _).bind
    rintro - c rfl
    apply (spec_free_optional _ _ _).bind
    rintro - c rfl
    apply (spec_freeProtocols _ _ rfl).bind
    rintro - c ⟨b', rfl⟩
    exact spec_free (add_zero _).symm
  · rintro y rest - c rfl
    apply spec_loadAs_bind (K := testKind)
      (a := { x.block t with streams := streamList.first (y :: rest) 0 }) (by simp)
    apply spec_of_owned
    intro _ hnull
    have hne : streamList.first (y :: rest) 0 ≠ 0 := by
      rw [ne_eq, streamList.first_eq_zero_iff (Multiset.le_add_right _ _) hnull]
      exact List.cons_ne_nil y rest
    rw [if_neg hne]
    apply spec_loadAs_bind (K := streamKind) (a := y.block (streamList.first rest 0))
      (by simp [streamList])
    apply spec_update_bind (K := testKind) (add_left_comm _ _ _)
    have hcells : ∀ b : Block, {(test, b)} + (streamList.segment (y :: rest) 0 + x.parts t) =
        streamList.cells y (streamList.first rest 0) +
          (streamList.segment rest 0 + ({(test, b)} + x.parts t)) := by
      intro b
      rw [streamList.segment_cons]
      abel
    rw [hcells]
    apply (spec_iperf_free_stream.frame _).bind
    rintro - c ⟨c, rfl, rfl⟩
    rw [zero_add]
    exact spec_pure ⟨(), rfl, rfl⟩
  · rintro - c rfl
    rw [streamList.segment_nil, zero_add]
    apply spec_loadAs_bind (K := testKind) (a := { x.block t with streams := 0 }) (by simp)
    exact spec_pure ⟨rfl, rfl⟩

theorem spec_set_protocol {b : TestBlock} {tcp udp : ℕ} (hb : b.protocols = tcp) :
    Spec ({(test, .test b)} + ({(tcp, .protocol ⟨.Ptcp, udp⟩)} + d)) (set_protocol test .Ptcp)
      fun _ c' => c' = {(test, .test { b with protocol := tcp })} +
        ({(tcp, .protocol ⟨.Ptcp, udp⟩)} + d) := by
  apply spec_loadAs_bind (K := testKind) (a := b) (by simp)
  subst hb
  apply Spec.bind (spec_loopBlocks (fun (_ : List Empty) prot c => prot = b.protocols ∧
      c = {(test, .test b)} + ({(b.protocols, .protocol ⟨.Ptcp, udp⟩)} + d))
    (fun _ c => c = {(test, .test { b with protocol := b.protocols })} +
      ({(b.protocols, .protocol ⟨.Ptcp, udp⟩)} + d)) ?_ ?_ [] ⟨rfl, rfl⟩ (Nat.zero_le _))
  · rintro prot c rfl
    exact spec_pure rfl
  · rintro ⟨⟩
  · rintro prot c ⟨rfl, rfl⟩
    apply spec_of_owned
    intro _ hnull
    have hne : b.protocols ≠ 0 := by
      intro hzero
      apply hnull
      simp [hzero]
    rw [if_neg hne]
    apply spec_loadAs_bind (K := protocolKind) (a := ⟨.Ptcp, udp⟩) (by simp)
    rw [if_pos rfl]
    apply spec_update_bind (K := testKind) (a := b) rfl
    exact spec_pure ⟨rfl, rfl⟩

theorem spec_iperf_defaults (settings : ℕ) :
    Spec ({(test, .test { settings := settings })} + {(settings, .settings ⟨0, 0, 0, 0, 0, 0⟩)})
      (iperf_defaults A test) fun _ c' => ∃ tcp udp, c' =
        {(test, .test
          { settings := settings, num_streams := 1, protocols := tcp, protocol := tcp })} +
          ({(tcp, .protocol ⟨.Ptcp, udp⟩)} +
            ({(udp, .protocol ⟨.Pudp, 0⟩)} + {(settings, .settings {})})) := by
  apply spec_update_bind (K := testKind) (a := { settings := settings }) rfl
  apply spec_loadAs_bind (K := testKind) (a := { settings := settings, num_streams := 1 }) (by simp)
  apply spec_update_bind (K := settingsKind) (a := ⟨0, 0, 0, 0, 0, 0⟩) (add_comm _ _)
  apply spec_update_bind (K := testKind) (a := { settings := settings, num_streams := 1 })
    (add_comm _ _)
  apply spec_malloc_bind A
  intro tcp _
  apply spec_malloc_bind A
  intro udp _
  change Spec ({(udp, Block.protocol ⟨.Pudp, 0⟩)} + ({(tcp, Block.protocol ⟨.Ptcp, 0⟩)} +
    ({(test, Block.test { settings := settings, num_streams := 1 })} +
      {(settings, Block.settings {})}))) _ _
  apply spec_loadAs_bind (K := testKind) (a := { settings := settings, num_streams := 1 }) (by simp)
  apply spec_update_bind (K := protocolKind) (a := ⟨.Ptcp, 0⟩) (add_left_comm _ _ _)
  change Spec ({(tcp, Block.protocol ⟨.Ptcp, 0⟩)} + ({(udp, Block.protocol ⟨.Pudp, 0⟩)} +
    ({(test, Block.test { settings := settings, num_streams := 1 })} +
      {(settings, Block.settings {})}))) _ _
  apply spec_update_bind (K := testKind) (a := { settings := settings, num_streams := 1 })
    (d := {(tcp, .protocol ⟨.Ptcp, 0⟩)} + {(udp, .protocol ⟨.Pudp, 0⟩)} +
      {(settings, .settings {})}) (by abel)
  change Spec
    ({(test, Block.test { settings := settings, num_streams := 1, protocols := tcp })} + _) _ _
  apply spec_loadAs_bind (K := protocolKind) (a := ⟨.Ptcp, 0⟩) (by simp)
  apply spec_update_bind (K := protocolKind) (a := ⟨.Pudp, 0⟩)
    (d := {(test, .test { settings := settings, num_streams := 1, protocols := tcp })} +
      {(tcp, .protocol ⟨.Ptcp, 0⟩)} + {(settings, .settings {})}) (by abel)
  change Spec ({(udp, Block.protocol ⟨.Pudp, 0⟩)} +
    ({(test, Block.test { settings := settings, num_streams := 1, protocols := tcp })} +
      {(tcp, Block.protocol ⟨.Ptcp, 0⟩)} + {(settings, Block.settings {})})) _ _
  apply spec_update_bind (K := protocolKind) (a := ⟨.Ptcp, 0⟩)
    (d := {(test, .test { settings := settings, num_streams := 1, protocols := tcp })} +
      {(udp, .protocol ⟨.Pudp, 0⟩)} + {(settings, .settings {})}) (by abel)
  have hcells : ({(tcp, Block.protocol ⟨.Ptcp, udp⟩)} : Cells Block) +
      ({(test, Block.test { settings := settings, num_streams := 1, protocols := tcp })} +
        {(udp, Block.protocol ⟨.Pudp, 0⟩)} + {(settings, Block.settings {})}) =
      {(test, Block.test { settings := settings, num_streams := 1, protocols := tcp })} +
        ({(tcp, Block.protocol ⟨.Ptcp, udp⟩)} + ({(udp, Block.protocol ⟨.Pudp, 0⟩)} +
          {(settings, Block.settings {})})) := by
    abel
  change Spec ({(tcp, Block.protocol ⟨.Ptcp, udp⟩)} + _) _ _
  rw [hcells]
  apply (spec_set_protocol rfl).mono
  rintro - c rfl
  exact ⟨tcp, udp, rfl⟩

theorem spec_iperf_new_test :
    Spec (0 : Cells Block) (iperf_new_test A) fun test c' => ∃ settings, test ≠ 0 ∧
      c' = {(test, .test { settings := settings })} +
        {(settings, .settings ⟨0, 0, 0, 0, 0, 0⟩)} := by
  apply spec_malloc_bind A
  intro test htest
  apply spec_malloc_bind A
  intro settings _
  rw [add_zero, add_comm]
  apply spec_update_bind (K := testKind) rfl
  exact spec_pure ⟨settings, htest, rfl⟩

theorem spec_iperf_parse_arguments {settings tcp udp : ℕ} (server_ip : List UInt8) :
    Spec ({(test, .test
        { settings := settings, num_streams := 1, protocols := tcp, protocol := tcp })} +
      ({(tcp, .protocol ⟨.Ptcp, udp⟩)} +
        ({(udp, .protocol ⟨.Pudp, 0⟩)} + {(settings, .settings {})})))
      (iperf_parse_arguments A test server_ip) fun ok c' =>
        ok = true ∧ Holds test { role := .client } c' := by
  apply spec_loadAs_bind (K := testKind)
    (a := { settings := settings, num_streams := 1, protocols := tcp, protocol := tcp }) (by simp)
  rw [if_neg (fun h => by cases h)]
  apply spec_update_bind (K := testKind) rfl
  apply spec_malloc_bind A
  intro server_hostname hne
  apply spec_update_bind (K := testKind) (add_left_comm _ _ _)
  refine spec_pure ⟨rfl, ⟨settings, tcp, udp, server_hostname, 0, 0, 0, 0, server_ip, [], []⟩,
    ⟨hne, rfl, rfl, List.forall_mem_nil _, List.forall_mem_nil _, rfl, rfl, rfl⟩, ?_⟩
  simp only [Placement.cells, Placement.parts, Placement.base, Placement.timers, optional,
    if_neg hne, if_true, add_zero, Layout.segment_nil, zero_add]
  change ({(test, Block.test {
      role := some .client, protocol := tcp, server_hostname := server_hostname,
      num_streams := 1, protocols := tcp, settings := settings })} : Cells Block) +
    ({(server_hostname, Block.text server_ip)} + ({(tcp, Block.protocol ⟨.Ptcp, udp⟩)} +
      ({(udp, Block.protocol ⟨.Pudp, 0⟩)} + {(settings, Block.settings {})}))) =
    {(test, Block.test {
      role := some .client, protocol := tcp, server_hostname := server_hostname,
      num_streams := 1, protocols := tcp, settings := settings })} +
    ({(settings, Block.settings {})} + {(tcp, Block.protocol ⟨.Ptcp, udp⟩)} +
      {(udp, Block.protocol ⟨.Pudp, 0⟩)} + {(server_hostname, Block.text server_ip)})
  abel

end Tests

end IperfMemory
