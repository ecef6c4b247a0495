import VideoEditorOffloading.IperfParameters
import VideoEditorOffloading.IperfRuns

/-! # Tests with a server that keeps to the protocol

The server sends its messages in their order, and asks for the results when it has heard of the end
of the test; no call fails. Then every run of the client is one of a complete test. -/
namespace Iperf

open SegmentedStreams StatefulPrograms TransitionSystems

section Stages

inductive Stage where
  | connected
  | configured
  | created
  | started
  | running
  | ended
  | exchanged
  | displayed
  deriving DecidableEq, Repr

def Stage.rank : Stage → ℕ
  | .connected => 0
  | .configured => 1
  | .created => 2
  | .started => 3
  | .running => 4
  | .ended => 5
  | .exchanged => 6
  | .displayed => 7

def Stage.state : Stage → ℕ
  | .connected => 0
  | .configured => PARAM_EXCHANGE
  | .created => CREATE_STREAMS
  | .started => TEST_START
  | .running => TEST_RUNNING
  | .ended => TEST_END
  | .exchanged => EXCHANGE_RESULTS
  | .displayed => IPERF_DONE

def Stage.rest (other : Test) : Stage → List UInt8
  | .connected => 9 :: 10 :: 1 :: 2 :: 13 :: (resultsMessage other ++ [14])
  | .configured => 10 :: 1 :: 2 :: 13 :: (resultsMessage other ++ [14])
  | .created => 1 :: 2 :: 13 :: (resultsMessage other ++ [14])
  | .started => 2 :: 13 :: (resultsMessage other ++ [14])
  | .running => 13 :: (resultsMessage other ++ [14])
  | .ended => 13 :: (resultsMessage other ++ [14])
  | .exchanged => [14]
  | .displayed => []

def Stage.budget : Stage → ℕ
  | .connected => 16538
  | .exchanged => 1
  | .displayed => 0
  | .ended => 16389
  | _ => 16390

/-- What the stages have in common; `t` is the test at the beginning, `e` its error number. -/
structure Common (t : Test) (e : ℕ) (p : Process) : Prop where
  role : p.test.role = .client
  protocol : p.test.protocol = .Ptcp
  reverse : p.test.reverse = t.reverse
  num_streams : p.test.num_streams = t.num_streams
  duration : p.test.duration = t.duration
  settings : p.test.settings = t.settings
  reporter_interval : p.test.reporter_interval = 0
  reporter_timer : p.test.reporter_timer = false
  timer : p.test.timer = true → t.settings.bytes = 0
  errno : p.i_errno = e
  steady : Steady readAgain p.ctrl.reads
  ids : p.test.streams.map (·.id) = streamIds p.test.streams.length
  buffers : ∀ sp ∈ p.test.streams, sp.buffer.length = t.settings.blksize
  counted : p.test.bytes_sent = sum (·.total p.test.direction) p.test.streams

/-- What has been done up to a stage, with what the server has still to say. -/
structure Done (t other : Test) (e : ℕ) (stage : Stage) (rest : List UInt8) (p : Process) : Prop
    extends Common t e p where
  rest : payload p.ctrl.reads = rest
  writable : p.ctrl.Open stage.budget
  streams : p.test.streams.length = if 2 ≤ stage.rank then t.num_streams else 0
  intervals : 5 ≤ stage.rank → ∀ sp ∈ p.test.streams, sp.result.interval_results ≠ []
  /-- Without a time limit so many bytes have gone. -/
  quota : 5 ≤ stage.rank → 0 < t.settings.bytes →
    UInt64.ofNat t.num_streams * t.settings.bytes ≤ sum (·.total p.test.direction) p.test.streams
  told : 6 ≤ stage.rank → p.test.streams.map (·.result.total p.test.direction.opposite) =
    other.streams.map (·.result.total other.direction)
  summary : stage = .displayed → Summarized p.test

structure At (t other : Test) (e : ℕ) (stage : Stage) (p : Process) : Prop
    extends Done t other e stage (stage.rest other) p where
  state : p.test.state = stage.state

end Stages

section Transfers

variable {d : Direction} {n : ℕ} {sp : Stream}

def MovesBlock (d : Direction) (n : ℕ) (call : Stream → Except Stuck (Stream × ℤ)) : Prop :=
  ∀ sp : Stream, sp.buffer.length = n → ∃ sp', call sp = .ok (sp', n) ∧ Moved d sp sp' ∧
    sp'.result.total d = sp.result.total d + UInt64.ofInt n

theorem iperf_tcp_send_block {writes : Writes} (h : Willing (writeAgain .Ptcp) n writes)
    (hsp : sp.buffer.length = n) : iperf_tcp_send sp writes = .ok (sp.addSent n, n) := by
  subst hsp
  have h' : Willing (writeAgain .Ptcp) (sp.buffer.length + 0) writes := h
  obtain ⟨left, hwrite, -⟩ := Nwrite_message h'
  rw [iperf_tcp_send, hwrite]
  rfl

theorem iperf_tcp_recv_block {reads : Reads} (h : Steady readAgain reads)
    (hn : n ≤ (payload reads).length) (hsp : sp.buffer.length = n) :
    ∃ buffer : List UInt8, buffer.length = n ∧
      iperf_tcp_recv sp reads = .ok (({ sp with buffer }).addReceived n, n) := by
  have hpay : payload reads = (payload reads).take n ++ (payload reads).drop n :=
    (List.take_append_drop _ _).symm
  have htake : ((payload reads).take n).length = n := List.length_take_of_le hn
  obtain ⟨left, hread, -, -⟩ := Nread_message h hpay
  have hoverlay : overlay ((payload reads).take n) sp.buffer = (payload reads).take n :=
    overlay_of_length (by rw [htake, hsp])
  refine ⟨_, htake, ?_⟩
  rw [htake] at hread
  rw [iperf_tcp_recv, hsp, hread]
  simp only [bind, Except.bind, hoverlay]
  rfl

theorem snd_block {settings : Settings} {calls : Stream → StreamCalls}
    (h : ∀ sp, Willing (writeAgain .Ptcp) n (calls sp).writes) :
    MovesBlock .sends n fun sp => snd .Ptcp settings (calls sp) sp := by
  intro sp hsp
  exact ⟨sp.addSent n, iperf_tcp_send_block (h sp) hsp, moved_addSent sp n, rfl⟩

theorem rcv_block {calls : Stream → StreamCalls}
    (h : ∀ sp, Steady readAgain (calls sp).reads ∧ n ≤ (payload (calls sp).reads).length) :
    MovesBlock .receives n fun sp => rcv .Ptcp (calls sp) sp := by
  intro sp hsp
  obtain ⟨buffer, hbuffer, hcall⟩ := iperf_tcp_recv_block (h sp).1 (h sp).2 hsp
  refine ⟨_, hcall, { moved_addReceived sp n with buffer := hbuffer.trans hsp.symm }, rfl⟩

@[simp] theorem sum_cons (f : StreamResult → iperf_size_t) (sp : Stream) (streams : List Stream) :
    sum f (sp :: streams) = f sp.result + sum f streams := rfl

theorem transfer_blocks {call : Stream → Except Stuck (Stream × ℤ)} (hcall : MovesBlock d n call)
    {streams : List Stream} (hstreams : ∀ sp ∈ streams, sp.buffer.length = n) (ready : List ℕ)
    (bytes_sent : iperf_size_t) :
    ∃ streams' k, transfer call ready streams bytes_sent = .ok (streams', bytes_sent + k, false) ∧
      List.Forall₂ (Moved d) streams streams' ∧
      sum (·.total d) streams' = sum (·.total d) streams + k := by
  induction streams generalizing ready bytes_sent with
  | nil => exact ⟨[], 0, by rw [transfer, add_zero]; rfl, .nil, by rw [add_zero]⟩
  | cons sp streams ih =>
    obtain ⟨hsp, hstreams⟩ := List.forall_mem_cons.mp hstreams
    by_cases hready : sp.socket ∈ ready
    · obtain ⟨sp', hsp', hmoved, htotal⟩ := hcall sp hsp
      obtain ⟨streams', k, hrest, hmoveds, hsum⟩ := ih hstreams
        (ready.filter (· ≠ sp'.socket)) (bytes_sent + UInt64.ofInt n)
      refine ⟨sp' :: streams', UInt64.ofInt n + k, ?_, .cons hmoved hmoveds, ?_⟩
      · have hpos : ¬ UInt64.ofInt n < 0 := by simp
        rw [transfer, if_pos hready, hsp', ← add_assoc]
        simp only [bind, Except.bind, if_neg hpos, hrest]
        rfl
      · rw [sum_cons, sum_cons, hsum, htotal, add_add_add_comm]
    · obtain ⟨streams', k, hrest, hmoveds, hsum⟩ := ih hstreams ready bytes_sent
      refine ⟨sp :: streams', k, ?_, .cons (moved_refl d sp) hmoveds, ?_⟩
      · rw [transfer, if_neg hready, hrest]
        rfl
      · rw [sum_cons, sum_cons, hsum, add_assoc]

end Transfers

section Figures

variable {test : Test} {streams : List Stream} {bytes : iperf_size_t} {time : ℚ}

/-- Less than 1024 GByte, and less than 1000 Gbit a second. -/
def FiguresFit (bytes : iperf_size_t) (time : ℚ) : Prop :=
  bytes.toNat < 2 ^ 40 ∧ (bytes ≠ 0 → (bytes.toNat : ℚ) * 8 < 10 ^ 12 * time)

instance (bytes : iperf_size_t) (time : ℚ) : Decidable (FiguresFit bytes time) :=
  inferInstanceAs (Decidable (_ ∧ _))

def Test.lastIntervals (test : Test) : List IntervalResults :=
  test.streams.filterMap (·.result.last_interval_results)

def Test.end_time (test : Test) : ℚ :=
  test.streams.head?.elim 0 fun sp => timeval_diff sp.result.start_time sp.result.end_time

/-- The lines of the report at the end of the test: the last interval of every stream, the totals of
every stream, and for several streams the sums of both. -/
def Test.lines (test : Test) : List (iperf_size_t × ℚ) :=
  test.lastIntervals.map (fun ir => (ir.bytes_transferred, ir.interval_duration)) ++
  test.streams.flatMap (fun sp =>
    [(sp.result.bytes_sent, test.end_time), (sp.result.bytes_received, test.end_time)]) ++
  if 1 < test.num_streams then
    test.lastIntervals.head?.toList.map (fun ip =>
      ((test.lastIntervals.map (·.bytes_transferred)).sum, ip.interval_duration)) ++
    [(sum (·.bytes_sent) test.streams, test.end_time),
      (sum (·.bytes_received) test.streams, test.end_time)]
  else []

def Test.Printable (test : Test) : Prop := ∀ line ∈ test.lines, FiguresFit line.1 line.2

instance (test : Test) : Decidable test.Printable := inferInstanceAs (Decidable (∀ _ ∈ _, _))

/-- The loop stays inside the tables as long as the number is less than a unit behind the last. -/
theorem unitIndex_lt {unit x : ℚ} (hunit : 1 ≤ unit) (n : ℕ) :
    unitIndex unit (n + 1) x < n + 1 ↔ x < unit ^ (n + 1) := by
  have hpos : 0 < unit := zero_lt_one.trans_le hunit
  induction n generalizing x with
  | zero =>
    rw [unitIndex, zero_add, pow_one]
    split
    · rename_i hle
      exact iff_of_false (by simp [unitIndex]) hle.not_gt
    · rename_i hlt
      exact iff_of_true one_pos (lt_of_not_ge hlt)
  | succ n ih =>
    rw [unitIndex]
    split
    · calc unitIndex unit (n + 1) (x / unit) + 1 < n + 1 + 1
          ↔ unitIndex unit (n + 1) (x / unit) < n + 1 := Nat.add_lt_add_iff_right
        _ ↔ x / unit < unit ^ (n + 1) := ih
        _ ↔ x < unit ^ (n + 1 + 1) := by rw [div_lt_iff₀ hpos, ← pow_succ]
    · rename_i hlt
      have hle : unit ≤ unit ^ (n + 1 + 1) := le_self_pow₀ hunit (Nat.succ_ne_zero _)
      exact iff_of_true (Nat.succ_pos _) ((lt_of_not_ge hlt).trans_le hle)

theorem printLine_fits (h : FiguresFit bytes time) : printLine bytes time = .ok () := by
  obtain ⟨hbytes, hbits⟩ := h
  have hsize : unit_snprintf (some bytes.toNat) .bytes = .ok () := by
    have hlt : unitIndex 1024 (3 + 1) bytes.toNat < 3 + 1 := by
      rw [unitIndex_lt (by norm_num)]
      have hcast : (bytes.toNat : ℚ) < (2 ^ 40 : ℕ) := Nat.cast_lt.mpr hbytes
      calc (bytes.toNat : ℚ) < (2 ^ 40 : ℕ) := hcast
        _ = 1024 ^ (3 + 1) := by norm_num
    rw [unit_snprintf]
    exact if_pos hlt
  have hspeed : unit_snprintf (perSecond bytes time) .bits = .ok () := by
    by_cases hzero : bytes = 0
    · subst hzero
      have hlt : unitIndex 1000 (3 + 1) ((0 : ℚ) / time * 8) < 3 + 1 := by
        rw [unitIndex_lt (by norm_num), zero_div, zero_mul]
        norm_num
      rw [perSecond, if_neg (by simp), unit_snprintf]
      exact if_pos hlt
    · have hbits := hbits hzero
      have hnonneg : (0 : ℚ) ≤ bytes.toNat := Nat.cast_nonneg _
      have htime : 0 < time := by linarith
      have hlt : unitIndex 1000 (3 + 1) (bytes.toNat / time * 8) < 3 + 1 := by
        rw [unitIndex_lt (by norm_num), div_mul_eq_mul_div, div_lt_iff₀ htime]
        calc (bytes.toNat : ℚ) * 8 < 10 ^ 12 * time := hbits
          _ = 1000 ^ (3 + 1) * time := by norm_num
      rw [perSecond, if_neg (by simp [htime.ne']), unit_snprintf]
      exact if_pos hlt
  rw [printLine, hsize]
  exact hspeed

theorem filterMap_last {sp : Stream} {ir : IntervalResults}
    (h : sp.result.last_interval_results = some ir) :
    (sp :: streams).filterMap (·.result.last_interval_results) =
      ir :: streams.filterMap (·.result.last_interval_results) :=
  List.filterMap_cons_some (f := fun sp : Stream => sp.result.last_interval_results) h

theorem printIntervals_fits (h : ∀ sp ∈ streams, ∃ ir, sp.result.last_interval_results = some ir ∧
      FiguresFit ir.bytes_transferred ir.interval_duration) (bytes : iperf_size_t) :
    printIntervals streams bytes = .ok (bytes +
      ((streams.filterMap (·.result.last_interval_results)).map (·.bytes_transferred)).sum) := by
  induction streams generalizing bytes with
  | nil => exact congrArg Except.ok (add_zero bytes).symm
  | cons sp streams ih =>
    obtain ⟨⟨ir, hlast, hfits⟩, hrest⟩ := List.forall_mem_cons.mp h
    have hprint : print_interval_results sp = .ok () := by
      rw [print_interval_results, hlast]
      exact printLine_fits hfits
    rw [printIntervals, hprint, filterMap_last hlast, List.map_cons, List.sum_cons, ← add_assoc,
      ← ih hrest, hlast]
    rfl

theorem printTotals_fits (h : ∀ sp ∈ streams, FiguresFit sp.result.bytes_sent time ∧
    FiguresFit sp.result.bytes_received time) : printTotals time streams = .ok () := by
  induction streams with
  | nil => rfl
  | cons sp streams ih =>
    obtain ⟨⟨hsent, hreceived⟩, hrest⟩ := List.forall_mem_cons.mp h
    rw [printTotals, printLine_fits hsent, printLine_fits hreceived, ih hrest]
    split <;> split <;> rfl

theorem printed (h : test.Printable) (hintervals : ∀ sp ∈ test.streams,
      sp.result.interval_results ≠ []) :
    printIntermediate test = .ok () ∧ printResults test test.end_time = .ok () := by
  have hlast : ∀ sp ∈ test.streams, ∃ ir, sp.result.last_interval_results = some ir := by
    intro sp hsp
    exact ⟨_, List.getLast?_eq_some_getLast (hintervals sp hsp)⟩
  have hfits : ∀ sp ∈ test.streams, ∃ ir, sp.result.last_interval_results = some ir ∧
      FiguresFit ir.bytes_transferred ir.interval_duration := by
    intro sp hsp
    obtain ⟨ir, hir⟩ := hlast sp hsp
    refine ⟨ir, hir, h (ir.bytes_transferred, ir.interval_duration) ?_⟩
    rw [Test.lines, List.append_assoc]
    apply List.mem_append_left
    exact List.mem_map.mpr ⟨ir, List.mem_filterMap.mpr ⟨sp, hsp, hir⟩, rfl⟩
  have htotals : ∀ sp ∈ test.streams, FiguresFit sp.result.bytes_sent test.end_time ∧
      FiguresFit sp.result.bytes_received test.end_time := by
    intro sp hsp
    have hlines : ∀ line ∈ [(sp.result.bytes_sent, test.end_time),
        (sp.result.bytes_received, test.end_time)], FiguresFit line.1 line.2 := by
      intro line hline
      apply h line
      rw [Test.lines]
      apply List.mem_append_left
      exact List.mem_append_right _ (List.mem_flatMap.mpr ⟨sp, hsp, hline⟩)
    exact ⟨hlines _ List.mem_cons_self, hlines _ (List.mem_cons_of_mem _ List.mem_cons_self)⟩
  constructor
  · rw [printIntermediate, printIntervals_fits hfits, zero_add]
    by_cases hseveral : 1 < test.num_streams
    · cases hstreams : test.streams with
      | nil => rfl
      | cons sp rest =>
        obtain ⟨ip, hip⟩ := hlast sp (hstreams ▸ List.mem_cons_self)
        have hsum : printLine (test.lastIntervals.map (·.bytes_transferred)).sum
            ip.interval_duration = .ok () := by
          refine printLine_fits (h ((test.lastIntervals.map (·.bytes_transferred)).sum,
            ip.interval_duration) ?_)
          rw [Test.lines, if_pos hseveral]
          apply List.mem_append_right
          apply List.mem_append_left
          have hhead : test.lastIntervals.head? = some ip := by
            rw [Test.lastIntervals, hstreams, filterMap_last hip]
            rfl
          rw [hhead]
          exact List.mem_singleton_self _
        rw [Test.lastIntervals, hstreams] at hsum
        simp only [bind, Except.bind, List.head?_cons, Option.bind_some, hip, hsum]
        split <;> rfl
    · simp only [bind, Except.bind, hseveral, and_false, if_false]
      rfl
  · rw [printResults, printTotals_fits htotals]
    split
    · rename_i hseveral
      have hsums : ∀ line ∈ [(sum (·.bytes_sent) test.streams, test.end_time),
          (sum (·.bytes_received) test.streams, test.end_time)], FiguresFit line.1 line.2 := by
        intro line hline
        apply h line
        rw [Test.lines, if_pos hseveral]
        exact List.mem_append_right _ (List.mem_append_right _ hline)
      have hsent := printLine_fits (hsums _ List.mem_cons_self)
      have hreceived := printLine_fits (hsums _ (List.mem_cons_of_mem _ List.mem_cons_self))
      simp only [bind, Except.bind, hsent, hreceived]
      split <;> rfl
    · rfl

end Figures

section Messages

variable {t other : Test} {e : ℕ} {stage : Stage} {p q : Process} {pass : Pass}

theorem Common.expressible (h : Common t e p) (ht : t.Expressible) : p.test.Expressible := by
  obtain ⟨hn, hd, hw, hm, hs, hb, hr, hl⟩ := ht
  rw [← h.settings] at hw hm hs hb hr hl
  rw [← h.num_streams] at hn
  rw [← h.duration] at hd
  exact ⟨hn, hd, hw, hm, hs, hb, hr, hl⟩

theorem Common.withStreams {streams : List Stream} (h : Common t e p)
    (hids : streams.map (·.id) = streamIds streams.length)
    (hbuffers : ∀ sp ∈ streams, sp.buffer.length = t.settings.blksize)
    (hsum : sum (·.total p.test.direction) streams =
      sum (·.total p.test.direction) p.test.streams) :
    Common t e { p with test := p.test.withStreams streams } :=
  { h with ids := hids, buffers := hbuffers, counted := h.counted.trans hsum.symm }

theorem Common.hears (h : Common t e p) (b : UInt8) {left : Reads} (hleft : Steady readAgain left) :
    Common t e (p.hears b left) := { h with steady := hleft }

theorem Common.sends (h : Common t e p) (buf : List UInt8) (left : Writes) :
    Common t e (p.sends buf left) := { h with }

theorem Stage.state_lt (stage : Stage) : stage.state < 256 := by
  cases stage <;> decide

theorem At.readState {b : UInt8} {bs : List UInt8} {reads : Reads} (h : At t other e stage p)
    (hreads : p.ctrl.reads = .data (b :: bs) :: reads) :
    ∃ rest q, stage.rest other = b :: rest ∧ readState p = .ok () q ∧
      q.test = { p.test with state := b.toNat } ∧
      (stage ≠ .displayed → Done t other e stage rest q) := by
  have hread := readState_spec (h.state ▸ stage.state_lt) hreads
  have hrest := h.rest
  have hsteady := h.steady
  rw [hreads] at hrest hsteady
  refine ⟨bs ++ payload reads, _, hrest.symm, hread, rfl, ?_⟩
  intro hne
  have hleft : Steady readAgain (if bs = [] then reads else .data bs :: reads) := by
    split
    · exact hsteady.tail
    · exact steady_data.mpr hsteady.tail
  have hpay : payload (if bs = [] then reads else .data bs :: reads) = bs ++ payload reads := by
    split
    · rename_i hbs
      rw [hbs, List.nil_append]
    · rfl
  exact { h.toCommon.hears b hleft with
    rest := hpay
    writable := h.writable
    streams := h.streams
    intervals := h.intervals
    quota := h.quota
    told := h.told
    summary := fun h => absurd h hne }

theorem Common.done {rest : List UInt8} (h : Common t e q) (hrank : stage.rank < 5)
    (hrest : payload q.ctrl.reads = rest) (hwritable : q.ctrl.Open stage.budget)
    (hstreams : q.test.streams.length = if 2 ≤ stage.rank then t.num_streams else 0) :
    Done t other e stage rest q where
  toCommon := h
  rest := hrest
  writable := hwritable
  streams := hstreams
  intervals := fun h => absurd h (by omega)
  quota := fun h => absurd h (by omega)
  told := fun h => absurd h (by omega)
  summary := by
    rintro rfl
    exact absurd hrank (by decide)

theorem parameters_sent {rest : List UInt8} (h : Done t other e .connected rest q)
    (ht : t.Expressible) :
    ∃ q', iperf_exchange_parameters q = .ok () q' ∧ q'.test = q.test ∧
      Done t other e .configured rest q' := by
  have hfit := h.expressible ht
  have hlen : (parametersMessage q.test).length ≤ 148 :=
    Nat.succ_le_succ (length_parameters_le hfit)
  obtain ⟨left, hsend, hopen⟩ := package_parameters_spec (n := 16390) hfit
    (h.writable.weaken (by rw [Stage.budget]; omega))
  exact ⟨_, hsend, rfl, (h.toCommon.sends _ left).done (by decide) h.rest hopen h.streams⟩

theorem iperf_add_stream_eq (streams : List Stream) (sp : Stream) :
    iperf_add_stream streams sp = streams ++
      [{ sp with id := if streams.length = 0 then 1 else (streams.length : ℤ) + 2 }] := by
  cases streams with
  | nil => rfl
  | cons sp' streams => rfl

theorem createStreams_spec {n : ℕ} {opened : List (ℕ × (ℕ → UInt8))} (hn : n ≤ opened.length)
    (hq : Common t e q) :
    ∃ streams, createStreams n (opened.map fun c => .opened c.1 c.2) q =
        .ok () { q with test := q.test.withStreams streams } ∧
      Common t e { q with test := q.test.withStreams streams } ∧
      streams.length = q.test.streams.length + n := by
  induction n generalizing q opened with
  | zero => exact ⟨q.test.streams, rfl, hq, rfl⟩
  | succ n ih =>
    cases opened with
    | nil => exact absurd hn (Nat.not_succ_le_zero n)
    | cons c opened =>
      let sp : Stream := { socket := c.1, buffer := (List.range q.test.settings.blksize).map c.2 }
      have hstreams := iperf_add_stream_eq q.test.streams sp
      have hlen : (iperf_add_stream q.test.streams sp).length = q.test.streams.length + 1 := by
        rw [hstreams, List.length_append, List.length_singleton]
      have hq' : Common t e
          { q with test := q.test.withStreams (iperf_add_stream q.test.streams sp) } := by
        apply hq.withStreams
        · rw [hlen, streamIds_succ, hstreams, List.map_append, hq.ids]
          rfl
        · rw [hstreams]
          intro sp' hsp'
          rcases List.mem_append.mp hsp' with hsp' | hsp'
          · exact hq.buffers sp' hsp'
          · rw [List.mem_singleton.mp hsp', ← hq.settings]
            simp [sp]
        · have hzero : (StreamResult.total {} q.test.direction) = 0 := by
            cases q.test.direction <;> rfl
          rw [hstreams, sum, List.map_append, List.sum_append, List.map_singleton,
            List.sum_singleton]
          exact (congrArg _ hzero).trans (add_zero _)
      obtain ⟨streams, hrest, hcommon, hlength⟩ := ih (Nat.le_of_succ_le_succ hn) hq'
      refine ⟨streams, ?_, hcommon, ?_⟩
      · rw [List.map_cons, createStreams]
        exact (modifyTest_bind).trans hrest
      · rw [hlength]
        change (iperf_add_stream q.test.streams sp).length + n = _
        omega

theorem streams_created {rest : List UInt8} (h : Done t other e .configured rest q)
    {opened : List (ℕ × (ℕ → UInt8))} (hn : q.test.num_streams ≤ opened.length)
    (hpass : pass.connections = opened.map fun c => .opened c.1 c.2) :
    ∃ q', iperf_create_streams pass q = .ok () q' ∧ q'.test.state = q.test.state ∧
      Done t other e .created rest q' := by
  obtain ⟨streams, hcreate, hcommon, hlength⟩ := createStreams_spec hn h.toCommon
  have hempty : q.test.streams.length = 0 := h.streams
  refine ⟨{ q with test := q.test.withStreams streams }, ?_, rfl, ?_⟩
  · rw [iperf_create_streams, get_bind, hpass]
    exact hcreate
  · refine hcommon.done (by decide) h.rest h.writable ?_
    rw [if_pos (by decide), ← h.num_streams]
    exact hlength.trans (by rw [hempty, Nat.zero_add])

theorem Common.mapIdx (h : Common t e q) {f : ℕ → Stream → Stream}
    (hid : ∀ i sp, (f i sp).id = sp.id) (hbuffer : ∀ i sp, (f i sp).buffer = sp.buffer)
    (htotal : ∀ i sp, (f i sp).result.total q.test.direction = sp.result.total q.test.direction) :
    Common t e { q with test := q.test.withStreams (q.test.streams.mapIdx f) } ∧
      sum (·.total q.test.direction) (q.test.streams.mapIdx f) =
        sum (·.total q.test.direction) q.test.streams := by
  have hmap : ∀ {β : Type} {g : Stream → β}, (∀ i sp, g (f i sp) = g sp) →
      (q.test.streams.mapIdx f).map g = q.test.streams.map g := by
    intro β g hg
    apply List.ext_getElem
    · rw [List.length_map, List.length_map, List.length_mapIdx]
    · intro i hi hi'
      rw [List.getElem_map, List.getElem_map, List.getElem_mapIdx, hg]
  have hsum : sum (·.total q.test.direction) (q.test.streams.mapIdx f) =
      sum (·.total q.test.direction) q.test.streams := congrArg List.sum (hmap htotal)
  refine ⟨h.withStreams ?_ ?_ hsum, hsum⟩
  · rw [hmap hid, List.length_mapIdx]
    exact h.ids
  · intro sp hsp
    obtain ⟨i, hi, rfl⟩ := List.mem_mapIdx.mp hsp
    rw [hbuffer]
    exact h.buffers _ (List.getElem_mem hi)

theorem test_started (pass : Pass) {rest : List UInt8} (h : Done t other e .created rest q) :
    ∃ q', iperf_init_test pass q = .ok () q' ∧ q'.test.state = q.test.state ∧
      Done t other e .started rest q' := by
  have hinit : protocolInit q = .ok () q := by
    rw [protocolInit, get_bind, h.protocol]
    rfl
  obtain ⟨hcommon, -⟩ := h.toCommon.mapIdx (f := fun i sp => sp.start (pass.start_times i))
    (fun _ _ => rfl) (fun _ _ => rfl) fun _ _ => by cases q.test.direction <;> rfl
  refine ⟨_, bind_ok hinit, rfl, Common.done ?_ (by decide) h.rest h.writable ?_⟩
  · exact { hcommon with
      reporter_timer := by
        simp only [h.reporter_timer, h.reporter_interval]
        rfl
      timer := by
        intro htimer
        rcases (Bool.or_eq_true _ _).mp htimer with htimer | htimer
        · exact h.timer htimer
        · rw [← h.settings]
          exact eq_of_beq htimer }
  · exact List.length_mapIdx.trans h.streams

theorem results_told {rest : List UInt8}
    (h : Done t other e .ended (resultsMessage other ++ rest) q) (hn : t.num_streams ≤ 128)
    (hfits : other.Fits) (hids : other.streams.map (·.id) = streamIds t.num_streams)
    (hm : pass.memory.exhausted = false) :
    ∃ q', iperf_exchange_results pass.memory q = .ok () q' ∧ q'.test.state = q.test.state ∧
      Done t other e .exchanged rest q' := by
  have hlength : q.test.streams.length = t.num_streams := h.streams
  have hpaired : Paired q.test other := by
    have hq : q.test.streams.map (·.id) = streamIds t.num_streams := by
      rw [h.ids, hlength]
    exact ⟨hq.trans hids.symm, hq ▸ streamIds_nodup _⟩
  have hlen : (resultsMessage q.test).length ≤ 16388 := by
    have htext := length_resultsText_le (hlength.trans_le hn)
    simp only [resultsMessage, List.length_append, length_htonl, List.length_singleton]
    omega
  obtain ⟨left, hsend, hopen⟩ := sendResults_spec (p := q) (n := 1)
    (h.writable.weaken (by rw [Stage.budget]; omega))
  obtain ⟨left', hreceive, hpay, hsteady⟩ := receiveResults_spec
    (p := q.sends (resultsMessage q.test) left)
    (htonl ((resultsText q.test).length + 1)) rest hm (length_htonl _) hfits hpaired h.steady h.rest
  have hstreams : (q.test.receives other).streams =
      exchanged q.test.direction (·.total other.direction) q.test.streams other.streams := rfl
  have hown : ∀ {β : Type} {g : Stream → β},
      (∀ (sp : Stream) (v : Fields), g (sp.setResults q.test.direction v) = g sp) →
      (q.test.receives other).streams.map g = q.test.streams.map g := by
    intro β g hg
    rw [hstreams]
    exact map_exchanged_own hpaired.length hg
  have hknown : (q.test.receives other).streams.map (·.result.total q.test.direction.opposite) =
      other.streams.map (·.result.total other.direction) := by
    rw [hstreams]
    apply map_exchanged hpaired.length
    intro sp their
    cases q.test.direction <;> rfl
  have hlength' : (q.test.receives other).streams.length = q.test.streams.length := by
    have hids' := congrArg List.length (hown fun _ v => setResults_id (d := q.test.direction) v)
    rwa [List.length_map, List.length_map] at hids'
  have htotal : sum (·.total q.test.direction) (q.test.receives other).streams =
      sum (·.total q.test.direction) q.test.streams := by
    apply congrArg List.sum
    apply hown
    intro sp v
    cases q.test.direction <;> rfl
  refine ⟨_, (exchange_client pass.memory h.role hsend).trans hreceive, rfl, ?_⟩
  have hcommon : Common t e
      { (q.sends (resultsMessage q.test) left).reads left' with test := q.test.receives other } :=
    { h.toCommon with
      steady := hsteady
      ids := by
        rw [hlength', ← h.ids]
        exact hown fun _ v => setResults_id v
      buffers := by
        intro sp hsp
        obtain ⟨own, hown, -, -, rfl⟩ := mem_exchanged (hstreams ▸ hsp)
        rw [← h.buffers own hown]
        cases q.test.direction <;> rfl
      counted := h.counted.trans htotal.symm }
  exact { hcommon with
    rest := hpay
    writable := hopen
    streams := hlength'.trans hlength
    intervals := by
      intro _ sp hsp
      obtain ⟨own, hown, -, -, rfl⟩ := mem_exchanged (hstreams ▸ hsp)
      have hintervals := h.intervals (by decide) own hown
      cases hd : q.test.direction with
      | sends => exact hintervals
      | receives => exact hintervals
    quota := fun _ hbytes => (h.quota (by decide) hbytes).trans_eq htotal.symm
    told := fun _ => hknown
    summary := fun h => absurd h (by decide) }

theorem announce_spec (state : ℕ) {n : ℕ} (h : q.ctrl.Open (1 + n)) :
    ∃ left, announce state q = .ok ()
        ({ q with test := { q.test with state } }.sends [UInt8.ofNat state] left) ∧
      (q.sends [UInt8.ofNat state] left).ctrl.Open n := by
  let q' : Process := { q with test := { q.test with state } }
  have h' : q'.ctrl.Open ([UInt8.ofNat state].length + n) := h
  obtain ⟨left, hwrite, hopen⟩ := writeCtrl_spec h'
  refine ⟨left, ?_, hopen⟩
  rw [announce, setState, modifyTest_bind, bind_ok hwrite]
  rfl

theorem summary_displayed {rest : List UInt8} (h : Done t other e .exchanged rest q)
    (hstate : q.test.state = DISPLAY_RESULTS) (hn : 0 < t.num_streams)
    (hprintable : q.test.Printable) :
    ∃ q', ignore iperf_client_end q = .ok () q' ∧ q'.test.state = IPERF_DONE ∧
      Done t other e .displayed rest q' := by
  have hlength : q.test.streams.length = t.num_streams := h.streams
  have hintervals := h.intervals (by decide)
  obtain ⟨sp, rest', hstreams⟩ : ∃ sp rest', q.test.streams = sp :: rest' := by
    apply List.exists_cons_of_ne_nil
    rintro hnil
    rw [hnil] at hlength
    exact absurd hlength (by simpa using hn.ne)
  have hhead : sp ∈ q.test.streams.head? := by
    rw [hstreams]
    rfl
  obtain ⟨left, hannounce, hopen⟩ := announce_spec (q := q.summarize sp) IPERF_DONE (n := 0)
    h.writable
  obtain ⟨hintermediate, hresults⟩ := printed hprintable hintervals
  have hend_time : q.test.end_time =
      timeval_diff sp.result.start_time sp.result.end_time := by
    rw [Test.end_time, hstreams]
    rfl
  rw [hend_time] at hresults
  have hend := (bind_ok (f := fun _ => announce IPERF_DONE)
    (reporter_summarizes hstate hstreams hintermediate hresults)).trans hannounce
  have hignore : ∀ q', iperf_client_end q = .ok () q' → ignore iperf_client_end q = .ok () q' := by
    intro q' hq'
    rw [ignore, hq']
  refine ⟨_, hignore _ hend, rfl, ?_⟩
  have hcommon : Common t e
      { q with test := { (q.summarize sp).test with state := IPERF_DONE } } := { h.toCommon with }
  exact { hcommon.sends [UInt8.ofNat IPERF_DONE] left with
    rest := h.rest
    writable := hopen
    streams := h.streams
    intervals := fun _ => hintervals
    quota := fun _ => h.quota (by decide)
    told := fun _ => h.told (by decide)
    summary := fun _ => ⟨rfl, rfl, ⟨sp, hhead, rfl⟩, hintervals⟩ }

end Messages

section Running

variable {t other : Test} {e : ℕ} {rest : List UInt8} {p p₀ : Process} {pass : Pass}

/-- A pass in which no call fails or blocks, and the next message is there when `select` says so. The
results are asked for after TEST_END only, and the numbers of the report fit into its tables. -/
structure Succeeds (t : Test) (p : Process) (pass : Pass) : Prop where
  select : ∀ e, pass.select = .error e → e = .EINTR
  message : pass.ctrl_ready = true → ∃ b bs reads, p.ctrl.reads = .data (b :: bs) :: reads ∧
    (b.toNat = EXCHANGE_RESULTS → p.test.state = TEST_END) ∧
    (b.toNat = DISPLAY_RESULTS → p.test.Printable)
  memory : pass.memory.exhausted = false
  connections : ∃ opened : List (ℕ × (ℕ → UInt8)), t.num_streams ≤ opened.length ∧
    pass.connections = opened.map fun c => .opened c.1 c.2
  stream_select : ∀ e, pass.stream_select = .error e → e = .EINTR ∧ t.reverse = false
  sends : ∀ socket, Willing (writeAgain .Ptcp) t.settings.blksize (pass.calls socket).writes
  receives : ∀ socket, Steady readAgain (pass.calls socket).reads ∧
    t.settings.blksize ≤ (payload (pass.calls socket).reads).length

theorem transferAll_spec {call : Stream → Except Stuck (Stream × ℤ)} {code : ℕ}
    (hcall : MovesBlock p.test.direction t.settings.blksize call)
    (h : Done t other e .running rest p) :
    ∃ p', transferAll pass call code p = .ok () p' ∧ p'.test.state = p.test.state ∧
      Done t other e .running rest p' := by
  obtain ⟨streams, k, htransfer, hmoved, hsum⟩ :=
    transfer_blocks hcall h.buffers pass.stream_ready p.test.bytes_sent
  refine ⟨{ p with test := { p.test with streams, bytes_sent := p.test.bytes_sent + k } }, ?_, rfl,
    Common.done ?_ (by decide) h.rest h.writable (hmoved.length_eq.symm.trans h.streams)⟩
  · rw [transferAll, get_bind, lift_bind_ok htransfer]
    rfl
  · have hids : streams.map (·.id) = p.test.streams.map (·.id) :=
      map_eq_of_forall₂ (hmoved.imp fun _ _ => Moved.id)
    have hlengths : streams.map (·.buffer.length) = p.test.streams.map (·.buffer.length) :=
      map_eq_of_forall₂ (hmoved.imp fun _ _ => Moved.buffer)
    have hbuffers : ∀ sp ∈ streams, sp.buffer.length = t.settings.blksize := by
      have hmap : ∀ n ∈ p.test.streams.map (·.buffer.length), n = t.settings.blksize :=
        List.forall_mem_map.mpr h.buffers
      rw [← hlengths] at hmap
      exact List.forall_mem_map.mp hmap
    exact { h.toCommon with
      ids := by
        rw [hids, ← hmoved.length_eq]
        exact h.ids
      buffers := hbuffers
      counted := by
        rw [h.counted]
        exact hsum.symm }

theorem transferData_spec (hpass : Succeeds t p₀ pass) (h : Done t other e .running rest p) :
    ∃ p', transferData pass p = .ok () p' ∧ p'.test.state = p.test.state ∧
      Done t other e .running rest p' := by
  have hdirection := direction_eq h.role
  rw [transferData, get_bind]
  split
  · rename_i hreverse
    rw [if_pos hreverse] at hdirection
    rw [iperf_recv, get_bind]
    cases hselect : pass.stream_select with
    | error e' =>
      rw [h.reverse, (hpass.stream_select e' hselect).2] at hreverse
      cases hreverse
    | timeout => exact ⟨p, rfl, rfl, h⟩
    | ready =>
      simp only [h.protocol]
      apply transferAll_spec _ h
      rw [hdirection]
      exact rcv_block fun sp => hpass.receives sp.socket
  · rename_i hreverse
    rw [if_neg hreverse] at hdirection
    rw [iperf_send, get_bind]
    cases hselect : pass.stream_select with
    | error e' =>
      simp only [if_neg (not_not.mpr (hpass.stream_select e' hselect).1)]
      exact ⟨p, rfl, rfl, h⟩
    | timeout => exact ⟨p, rfl, rfl, h⟩
    | ready =>
      simp only [h.protocol]
      apply transferAll_spec _ h
      rw [hdirection]
      exact snd_block fun sp => hpass.sends sp.socket

theorem stats_spec (h : Done t other e .running rest p) (times : ℕ → Timeval) :
    ∃ p', iperf_stats_callback times p = .ok () p' ∧ p'.test.state = p.test.state ∧
      p'.test.direction = p.test.direction ∧
      sum (·.total p.test.direction) p'.test.streams =
        sum (·.total p.test.direction) p.test.streams ∧
      (∀ sp ∈ p'.test.streams, sp.result.interval_results ≠ []) ∧
      Done t other e .running rest p' := by
  obtain ⟨hcommon, hsum⟩ := h.toCommon.mapIdx
    (f := fun i sp => sp.stats p.test.direction (times i)) (fun _ _ => rfl) (fun _ _ => rfl)
    fun _ _ => by cases p.test.direction <;> rfl
  refine ⟨_, rfl, rfl, rfl, hsum, ?_, hcommon.done (by decide) h.rest h.writable
    (List.length_mapIdx.trans h.streams)⟩
  intro sp hsp
  obtain ⟨i, hi, rfl⟩ := List.mem_mapIdx.mp hsp
  simp [Stream.stats]

theorem performCallbacks_spec (pass : Pass) (h : Done t other e .running rest p) :
    ∃ p', performCallbacks pass p = .ok () p' ∧ p'.test.state = p.test.state ∧
      Done t other e .running rest p' := by
  have hreporter : (p.test.reporter_timer && pass.reporter_expired) = false := by
    rw [h.reporter_timer, Bool.false_and]
  rw [performCallbacks, get_bind, hreporter]
  split
  · obtain ⟨p', hstats, hstate, -, -, -, hdone⟩ := stats_spec h pass.interval_times
    exact ⟨p', bind_ok hstats, hstate, hdone⟩
  · exact ⟨p, rfl, rfl, h⟩

theorem sendTestEnd_spec (pass : Pass) (h : Done t other e .running rest p)
    (hstate : p.test.state = TEST_RUNNING) :
    ∃ p', sendTestEnd pass p = .ok () p' ∧
      (p'.test.state = TEST_RUNNING ∧ Done t other e .running rest p' ∨
        p'.test.state = TEST_END ∧ Done t other e .ended rest p') := by
  rw [sendTestEnd, get_bind]
  split
  · rename_i hend
    let q : Process := { p with test := { p.test with cpu_util := pass.cpu_util } }
    have hcommon : Common t e q := { h.toCommon with }
    have hq : Done t other e .running rest q :=
      hcommon.done (by decide) h.rest h.writable h.streams
    obtain ⟨p', hstats, -, hdirection, hsum, hintervals, hdone⟩ := stats_spec hq pass.end_times
    obtain ⟨left, hannounce, hopen⟩ := announce_spec (q := p') TEST_END (n := 16389) hdone.writable
    refine ⟨_, (modifyTest_bind).trans ((bind_ok hstats).trans hannounce), Or.inr ⟨rfl, ?_⟩⟩
    exact { hdone with
      writable := hopen
      intervals := fun _ => hintervals
      quota := by
        intro _ hbytes
        have htimer : p.test.timer = false := by
          cases htimer : p.test.timer with
          | false => rfl
          | true =>
            rw [h.timer htimer] at hbytes
            exact absurd hbytes (by decide)
        rw [htimer, Bool.false_and, Bool.or_false, all_data_sent, Bool.and_eq_true,
          decide_eq_true_eq, decide_eq_true_eq, h.num_streams, h.settings, h.counted] at hend
        refine hend.2.trans_eq (hsum.symm.trans ?_)
        change sum (·.total q.test.direction) p'.test.streams =
          sum (·.total p'.test.direction) p'.test.streams
        rw [hdirection]
      told := fun h => absurd h (by decide)
      summary := fun h => absurd h (by decide) }
  · exact ⟨p, rfl, Or.inl ⟨hstate, h⟩⟩

theorem whileRunning_spec (hpass : Succeeds t p₀ pass) (h : Done t other e .running rest p)
    (hstate : p.test.state = TEST_RUNNING) :
    ∃ p', whileRunning pass p = .ok () p' ∧
      (p'.test.state = TEST_RUNNING ∧ Done t other e .running rest p' ∨
        p'.test.state = TEST_END ∧ Done t other e .ended rest p') := by
  obtain ⟨p₁, htransfer, hstate₁, h₁⟩ := transferData_spec hpass h
  obtain ⟨p₂, hcallbacks, hstate₂, h₂⟩ := performCallbacks_spec pass h₁
  obtain ⟨p₃, hend, h₃⟩ := sendTestEnd_spec pass h₂
    (hstate₂.trans (hstate₁.trans hstate))
  refine ⟨p₃, ?_, h₃⟩
  rw [whileRunning, bind_ok htransfer, bind_ok hcallbacks]
  exact hend

end Running

section Loop

variable {t other : Test} {e : ℕ} {stage : Stage} {p : Process} {pass : Pass} {x x' : Client}

/-- The server has as many streams as the client, and they have the same identifiers. -/
structure Matches (t other : Test) : Prop where
  expressible : t.Expressible
  some : 0 < t.num_streams
  few : t.num_streams ≤ 128
  fits : other.Fits
  ids : other.streams.map (·.id) = streamIds t.num_streams

theorem handle_message_spec (hmatch : Matches t other) (h : At t other e stage p)
    (hpass : Succeeds t p pass) (hready : pass.ctrl_ready = true) :
    ∃ stage' p', iperf_handle_message_client pass p = .ok () p' ∧ At t other e stage' p' := by
  obtain ⟨b, bs, reads, hreads, hresults, hdisplay⟩ := hpass.message hready
  obtain ⟨rest, q, hrest, hread, htest, hdone⟩ := h.readState hreads
  have hvalue : q.test.state = b.toNat := congrArg Test.state htest
  have hhandle : iperf_handle_message_client pass p = _ := bind_ok hread
  rw [get_bind] at hhandle
  simp only [hvalue] at hhandle
  cases stage with
  | connected =>
    obtain ⟨rfl, rfl⟩ := List.cons.inj hrest
    obtain ⟨q', hq', hsame, hdone'⟩ := parameters_sent (hdone (by decide)) hmatch.expressible
    exact ⟨.configured, q', hhandle.trans hq', hdone', by rw [hsame]; exact hvalue⟩
  | configured =>
    obtain ⟨rfl, rfl⟩ := List.cons.inj hrest
    obtain ⟨opened, hopened, hconnections⟩ := hpass.connections
    have hnum : q.test.num_streams ≤ opened.length := by
      rw [(hdone (by decide)).num_streams]
      exact hopened
    obtain ⟨q', hq', hstate, hdone'⟩ := streams_created (hdone (by decide)) hnum hconnections
    exact ⟨.created, q', hhandle.trans hq', hdone', hstate.trans hvalue⟩
  | created =>
    obtain ⟨rfl, rfl⟩ := List.cons.inj hrest
    obtain ⟨q', hq', hstate, hdone'⟩ := test_started pass (hdone (by decide))
    exact ⟨.started, q', hhandle.trans hq', hdone', hstate.trans hvalue⟩
  | started =>
    obtain ⟨rfl, rfl⟩ := List.cons.inj hrest
    have h' := hdone (by decide)
    exact ⟨.running, q, hhandle,
      h'.toCommon.done (by decide) h'.rest h'.writable h'.streams, hvalue⟩
  | running =>
    obtain ⟨rfl, rfl⟩ := List.cons.inj hrest
    exact absurd (h.state.symm.trans (hresults rfl)) (by decide)
  | ended =>
    obtain ⟨rfl, rfl⟩ := List.cons.inj hrest
    obtain ⟨q', hq', hstate, hdone'⟩ := results_told (hdone (by decide)) hmatch.few hmatch.fits
      hmatch.ids hpass.memory
    exact ⟨.exchanged, q', hhandle.trans hq', hdone', hstate.trans hvalue⟩
  | exchanged =>
    obtain ⟨rfl, rfl⟩ := List.cons.inj hrest
    have hprintable : q.test.Printable := by
      rw [htest]
      exact hdisplay rfl
    obtain ⟨q', hq', hstate, hdone'⟩ := summary_displayed (hdone (by decide)) hvalue hmatch.some
      hprintable
    exact ⟨.displayed, q', hhandle.trans hq', hdone', hstate⟩
  | displayed => cases hrest

theorem running_spec (h : At t other e stage p) {p₀ : Process} (hpass : Succeeds t p₀ pass) :
    ∃ stage' p', (do
        let p ← get
        if p.test.state = TEST_RUNNING then whileRunning pass : Native Unit) p = .ok () p' ∧
      At t other e stage' p' := by
  rw [get_bind]
  split
  · rename_i hstate
    have hrunning : stage = .running := by
      have heq := h.state.symm.trans hstate
      cases stage with
      | running => rfl
      | _ => exact absurd heq (by decide)
    subst hrunning
    obtain ⟨p', hp', hdone⟩ := whileRunning_spec hpass h.toDone hstate
    rcases hdone with ⟨hstate', hdone⟩ | ⟨hstate', hdone⟩
    · exact ⟨.running, p', hp', hdone, hstate'⟩
    · exact ⟨.ended, p', hp', hdone, hstate'⟩
  · exact ⟨stage, p, rfl, h⟩

theorem loopBody_spec (hmatch : Matches t other) (h : At t other e stage p)
    (hpass : Succeeds t p pass) :
    ∃ stage' p', loopBody pass p = .ok () p' ∧ At t other e stage' p' := by
  rw [loopBody]
  cases hselect : pass.select with
  | error e' =>
    simp only [if_neg (not_not.mpr (hpass.select e' hselect))]
    exact ⟨stage, p, rfl, h⟩
  | timeout => exact ⟨stage, p, rfl, h⟩
  | ready =>
    simp only
    cases hready : pass.ctrl_ready with
    | false => exact running_spec h hpass
    | true =>
      obtain ⟨stage₁, p₁, hmessage, h₁⟩ := handle_message_spec hmatch h hpass hready
      obtain ⟨stage₂, p₂, hrunning, h₂⟩ := running_spec h₁ hpass
      exact ⟨stage₂, p₂, (bind_ok hmessage).trans hrunning, h₂⟩

structure Prepared (other : Test) (p : Process) : Prop where
  fresh : Fresh p.test
  protocol : p.test.protocol = .Ptcp
  bytes_sent : p.test.bytes_sent = 0
  reporter_interval : p.test.reporter_interval = 0
  timers : p.test.timer = false ∧ p.test.reporter_timer = false
  steady : Steady readAgain p.ctrl.reads
  rest : payload p.ctrl.reads = Stage.connected.rest other
  writable : p.ctrl.Open (37 + Stage.connected.budget)

def Serves (t : Test) (x : Client) : Event → Prop
  | .connect cookie => ∃ bytes, cookie = some bytes ∧ bytes.length = 37
  | .pass pass => Succeeds t x.process pass

theorem iperf_connect_spec (hp : Prepared other p) {cookie : List UInt8} (hcookie : cookie.length = 37) :
    ∃ p', iperf_connect (some cookie) p = .ok () p' ∧ At p.test other p.i_errno .connected p' := by
  let q : Process := { p with test := { p.test with cookie } }
  have hwritable : q.ctrl.Open (cookie.length + Stage.connected.budget) := by
    rw [hcookie]
    exact hp.writable
  obtain ⟨left, hwrite, hopen⟩ := writeCtrl_spec hwritable
  have hpos : ∀ k : ℕ, ¬ (k : ℤ) < 0 := fun k => by omega
  have hconnect : iperf_connect (some cookie) p =
      .ok () ({ p with test := { p.test with cookie } }.sends cookie left) := by
    rw [iperf_connect]
    refine (modifyTest_bind).trans ((bind_ok hwrite).trans ?_)
    rw [if_neg (hpos _)]
    rfl
  have hcommon : Common p.test p.i_errno
      ({ p with test := { p.test with cookie } }.sends cookie left) :=
    { role := hp.fresh.role
      protocol := hp.protocol
      reverse := rfl
      num_streams := rfl
      duration := rfl
      settings := rfl
      reporter_interval := hp.reporter_interval
      reporter_timer := hp.timers.2
      timer := fun htimer => absurd (hp.timers.1.symm.trans htimer) (by decide)
      errno := rfl
      steady := hp.steady
      ids := by
        change p.test.streams.map _ = streamIds p.test.streams.length
        rw [hp.fresh.streams]
        rfl
      buffers := by
        change ∀ sp ∈ p.test.streams, _
        rw [hp.fresh.streams]
        exact fun sp hsp => by cases hsp
      counted := by
        change p.test.bytes_sent = sum _ p.test.streams
        rw [hp.fresh.streams]
        exact hp.bytes_sent }
  refine ⟨_, hconnect, hcommon.done (by decide) hp.rest hopen ?_, hp.fresh.state⟩
  change p.test.streams.length = 0
  rw [hp.fresh.streams]
  rfl

def Complete (t other : Test) (e : ℕ) (x : Client) : Prop :=
  ∃ stage, At t other e stage x.process ∧
    x.status = if stage = .displayed then .returned else .running

theorem complete_after {result : EStateM.Result Ending Process Unit} {p' : Process}
    (hresult : result = .ok () p') (h : At t other e stage p') :
    Complete t other e (.after result) := by
  subst hresult
  refine ⟨stage, h, ?_⟩
  have hdone : p'.test.state = IPERF_DONE ↔ stage = .displayed := by
    rw [h.state]
    cases stage <;> decide
  simp only [Client.after, hdone]

theorem next_complete (hmatch : Matches p.test other) (hp : Prepared other p) {event : Event}
    (hserves : Serves p.test x event) (hnext : next x event = some x')
    (h : x = ⟨p, .starting⟩ ∨ Complete p.test other p.i_errno x) :
    Complete p.test other p.i_errno x' := by
  cases event with
  | connect cookie =>
    obtain ⟨hstarting, hnext⟩ := Option.ite_none_right_eq_some.mp hnext
    obtain rfl := Option.some.inj hnext
    obtain ⟨bytes, rfl, hbytes⟩ := hserves
    rcases h with rfl | ⟨stage, -, hstatus⟩
    · obtain ⟨p', hp', hat⟩ := iperf_connect_spec hp hbytes
      exact complete_after hp' hat
    · rw [hstarting] at hstatus
      split at hstatus <;> cases hstatus
  | pass pass =>
    obtain ⟨hrunning, hnext⟩ := Option.ite_none_right_eq_some.mp hnext
    obtain rfl := Option.some.inj hnext
    rcases h with rfl | ⟨stage, hat, -⟩
    · cases hrunning
    · obtain ⟨stage', p', hp', hat'⟩ := loopBody_spec hmatch hat hserves
      exact complete_after hp' hat'

/-- The total for what the client counts itself, and for what the server counts. -/
def Test.reported (test : Test) : Direction → iperf_size_t
  | .sends => test.total_sent
  | .receives => test.total_recv

theorem Summarized.reported (h : Summarized t) (d : Direction) :
    t.reported d = sum (·.total d) t.streams := by
  cases d with
  | sends => exact h.sent
  | receives => exact h.recv

end Loop

section Example

def messageArrived (x : Client) : Event → Bool
  | .connect _ => true
  | .pass pass =>
    !pass.ctrl_ready || match x.process.ctrl.reads with
      | .data (b :: _) :: _ =>
        (b.toNat ≠ EXCHANGE_RESULTS || x.process.test.state = TEST_END) &&
          (b.toNat ≠ DISPLAY_RESULTS || x.process.test.Printable)
      | _ => false

theorem examplePass_succeeds {ctrl_ready expired : Bool} {x : Client}
    (h : messageArrived x (.pass (examplePass ctrl_ready expired)) = true) :
    Succeeds exampleClient.test x.process (examplePass ctrl_ready expired) where
  select := by
    intro e h
    cases h
  message := by
    intro hready
    rw [messageArrived, hready] at h
    simp only [Bool.not_true, Bool.false_or] at h
    split at h
    · rename_i b bs reads hreads
      simp only [Bool.and_eq_true, Bool.or_eq_true, decide_eq_true_eq] at h
      exact ⟨b, bs, reads, hreads, fun hb => h.1.resolve_left (not_not.mpr hb),
        fun hb => h.2.resolve_left (not_not.mpr hb)⟩
    · cases h
  memory := rfl
  connections := ⟨[(7, fun _ => 0)], by decide, rfl⟩
  stream_select := by
    intro e h
    cases h
  sends := fun _ => ⟨by simp [examplePass, writeAgain], Nat.le_refl 2⟩
  receives := fun _ => ⟨by simp [examplePass, Steady], Nat.le_refl 2⟩

theorem example_serves : ∀ event ∈ exampleEvents, ∀ x, messageArrived x event = true →
    Serves exampleClient.test x event := by
  intro event hevent x h
  simp only [exampleEvents, List.mem_cons, List.not_mem_nil, or_false] at hevent
  rcases hevent with rfl | rfl | rfl | rfl | rfl | rfl | rfl | rfl
  · exact ⟨_, rfl, List.length_replicate⟩
  · exact examplePass_succeeds h
  · exact examplePass_succeeds h
  · exact examplePass_succeeds h
  · exact examplePass_succeeds h
  · exact examplePass_succeeds h
  · exact examplePass_succeeds h
  · exact examplePass_succeeds h

theorem example_matches : Matches exampleClient.test exampleServer where
  expressible := by constructor <;> decide
  some := by decide
  few := by decide
  fits := by
    refine ⟨?_, ?_, by decide⟩
    · intro sp hsp
      rw [List.mem_singleton.mp hsp]
      exact ⟨by decide, by decide, by decide, by norm_num⟩
    · norm_num [exampleServer, abs_of_nonneg]
  ids := rfl

theorem example_prepared : Prepared exampleServer exampleClient where
  fresh := ⟨rfl, rfl, rfl, rfl, rfl, rfl⟩
  protocol := rfl
  bytes_sent := rfl
  reporter_interval := rfl
  timers := ⟨rfl, rfl⟩
  steady := by
    change Steady readAgain exampleReads
    simp [exampleReads, Steady]
  rest := by
    change payload exampleReads = _
    simp [exampleReads, payload, Stage.rest]
  writable := open_replicate (k := 20000) (l := 99) rfl (by norm_num [Stage.budget])

def exampleRun : Option Client :=
  runEvents (fun x event => if messageArrived x event then next x event else none)
    ⟨exampleClient, .starting⟩ exampleEvents

end Example

end Iperf
