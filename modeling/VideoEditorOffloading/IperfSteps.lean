import VideoEditorOffloading.IperfClient
import VideoEditorOffloading.StatefulPrograms

/-! # The steps of the client

Whatever the server sends and however system calls end, the client's structure changes in a few
ways, most of them in one state of the protocol only. -/
namespace Iperf

open SegmentedStreams StatefulPrograms Relation

/-- What `iperf_run_client` puts into `i_errno`. -/
def reportable : List ℕ :=
  [IECONNECT, IESENDCOOKIE, IECTRLCLOSE, IEMESSAGE, IESENDMESSAGE, IERECVMESSAGE, IESENDPARAMS,
    IESENDRESULTS, IERECVRESULTS, IESELECT, IESERVERTERM, IESTREAMID] ++
  [32, 33, 34, 35, 36, 41, 42, 44, 46, 47]

/-- A stream about which the other side has said something, or nothing. -/
def Told (d : Direction) (sp sp' : Stream) : Prop := sp' = sp ∨ ∃ v, sp' = sp.setResults d v

/-- `-1` is returned with an error number of the client. -/
def Blamed (e : Ending) (p : Process) : Prop := e = .failed → p.i_errno ∈ reportable

abbrev Does (R : Process → Process → Prop) {α : Type} (x : Native α) (p : Process) : Prop :=
  Takes R Blamed x p

theorem blamed_stuck (e : Stuck) (p : Process) : Blamed (.stuck e) p := by
  intro h
  cases h

def Test.withStreams (test : Test) (streams : List Stream) : Test := { test with streams }

inductive Change : Process → Process → Prop where
  | errno (p : Process) (e : ℕ) : e ∈ reportable → Change p { p with i_errno := e }
  | control (p : Process) (ctrl : Control) : Change p { p with ctrl }
  | cookie (p : Process) (cookie : List UInt8) :
    Change p { p with test := { p.test with cookie } }
  /-- A message of one byte. -/
  | received (p : Process) (b : UInt8) : p.test.state ≠ IPERF_DONE →
    Change p { p with test := { p.test with state := p.test.state / 256 * 256 + b.toNat } }
  | created (p : Process) (socket : ℕ) (buffer : List UInt8) : p.test.state = CREATE_STREAMS →
    Change p { p with
      test := p.test.withStreams (iperf_add_stream p.test.streams { socket, buffer }) }
  | armed (p : Process) : p.test.state = TEST_START →
    Change p { p with
      test := p.test.withStreams (p.test.streams.map ({ · with send_timer := true })) }
  | started (p : Process) (timer stats_timer reporter_timer : Bool) (times : ℕ → Timeval) :
    p.test.state = TEST_START →
    Change p { p with
      test := { p.test.withStreams (p.test.streams.mapIdx fun i sp => sp.start (times i)) with
        timer, stats_timer, reporter_timer } }
  | transferred (p : Process) (streams : List Stream) (bytes_sent : iperf_size_t) :
    p.test.state = TEST_RUNNING → List.Forall₂ (Moved p.test.direction) p.test.streams streams →
    Change p { p with test := { p.test.withStreams streams with bytes_sent } }
  | interval (p : Process) (times : ℕ → Timeval) : p.test.state = TEST_RUNNING →
    Change p { p with
      test := p.test.withStreams
        (p.test.streams.mapIdx fun i sp => sp.stats p.test.direction (times i)) }
  | cpu (p : Process) (cpu_util : ℚ) : p.test.state = TEST_RUNNING →
    Change p { p with test := { p.test with cpu_util } }
  | ended (p : Process) : p.test.state = TEST_RUNNING →
    Change p { p with test := { p.test with state := TEST_END } }
  | results (p : Process) (streams : List Stream) (remote_cpu_util : ℚ) :
    p.test.state = EXCHANGE_RESULTS →
    List.Forall₂ (Told p.test.direction) p.test.streams streams →
    Change p { p with test := { p.test.withStreams streams with remote_cpu_util } }
  /-- The summary, and IPERF_DONE after it. -/
  | displayed (p : Process) (sp : Stream) (rest : List Stream) :
    p.test.state = DISPLAY_RESULTS → p.test.streams = sp :: rest →
    (∀ sp ∈ p.test.streams, sp.result.interval_results ≠ []) →
    Change p { p with test := { p.test with
      total_sent := sum (·.bytes_sent) p.test.streams
      total_recv := sum (·.bytes_received) p.test.streams
      total_time := timeval_diff sp.result.start_time sp.result.end_time
      state := IPERF_DONE } }

section Transfers

variable {sp sp' : Stream} {r : ℤ}

theorem length_overlay {got old : List UInt8} (h : got.length ≤ old.length) :
    (overlay got old).length = old.length := by
  rw [overlay, List.length_append, List.length_drop]
  omega

theorem Nread_length {count : ℕ} {reads : Reads} {got : Read} (h : Nread count reads = .ok got) :
    got.buf.length ≤ count := by
  have hle := (Nread_spec h).2.1
  rwa [Int.toNat_natCast] at hle

theorem iperf_tcp_send_moved {writes : Writes} (h : iperf_tcp_send sp writes = .ok (sp', r)) :
    Moved .sends sp sp' := by
  obtain ⟨w, -, h⟩ := bind_eq_ok.mp h
  split at h
  · cases h
    exact moved_refl _ _
  · cases h
    exact moved_addSent _ _

theorem iperf_tcp_recv_moved {reads : Reads} (h : iperf_tcp_recv sp reads = .ok (sp', r)) :
    Moved .receives sp sp' := by
  obtain ⟨got, hgot, h⟩ := bind_eq_ok.mp h
  have hlen := length_overlay (Nread_length hgot)
  split at h
  · cases h
    exact { moved_refl .receives sp with buffer := hlen }
  · cases h
    exact { moved_addReceived sp got.result with buffer := hlen }

theorem stamp_moved {before : Timeval} (h : sp.stamp before = .ok sp') : Moved .sends sp sp' := by
  rw [Stream.stamp] at h
  split at h
  · cases h
  · rename_i hlen
    obtain rfl := Except.ok.inj h
    have hbuffer : (header before sp.packet_count ++ sp.buffer.drop 16).length =
        sp.buffer.length := by
      simp only [header, List.length_append, length_htonl, List.length_drop, List.length_cons,
        List.length_nil]
      omega
    exact { moved_refl .sends sp with buffer := hbuffer }

theorem Moved.trans {d : Direction} {sp'' : Stream} (h : Moved d sp sp') (h' : Moved d sp' sp'') :
    Moved d sp sp'' := by
  obtain ⟨k, htotal, hthis⟩ := h.counted
  obtain ⟨k', htotal', hthis'⟩ := h'.counted
  exact ⟨h'.id.trans h.id, h'.socket.trans h.socket, h'.buffer.trans h.buffer,
    h'.intervals.trans h.intervals, h'.start_time.trans h.start_time, h'.end_time.trans h.end_time,
    k + k', by rw [htotal', htotal, add_assoc], by rw [hthis', hthis, add_assoc]⟩

theorem iperf_udp_send_moved {settings : Settings} {expired : Bool} {before : Timeval}
    {writes : Writes} (h : iperf_udp_send settings sp expired before writes = .ok (sp', r)) :
    Moved .sends sp sp' := by
  rw [iperf_udp_send] at h
  split at h
  · obtain ⟨dtargus, -, h⟩ := bind_eq_ok.mp h
    obtain ⟨stamped, hstamp, h⟩ := bind_eq_ok.mp h
    obtain ⟨w, -, h⟩ := bind_eq_ok.mp h
    have hcount : Moved .sends sp { sp with packet_count := sp.packet_count + 1 } :=
      ⟨rfl, rfl, rfl, rfl, rfl, rfl, 0, by rw [add_zero], by rw [add_zero]⟩
    have hmoved := hcount.trans (stamp_moved hstamp)
    split at h
    · cases h
      exact hmoved
    · cases h
      exact hmoved.trans (moved_addSent _ _)
  · cases h
    exact moved_refl _ _

theorem receive_moved (result : ℤ) (arrival_time : Timeval) :
    Moved .receives sp (sp.receive result arrival_time) := by
  have hcounted : ∀ sp : Stream, ∀ k, Moved .receives sp (sp.countPacket k) := by
    intro sp k
    rw [Stream.countPacket]
    split <;> exact { moved_refl .receives sp with buffer := rfl }
  have hmeasured : ∀ sp : Stream, ∀ a b, Moved .receives sp (sp.measure a b) := by
    intro sp a b
    exact { moved_refl .receives sp with buffer := rfl }
  exact ((moved_addReceived sp result).trans (hcounted _ _)).trans (hmeasured _ _ _)

theorem iperf_udp_recv_moved {reads : Reads} {arrival_time : Timeval}
    (h : iperf_udp_recv sp reads arrival_time = .ok (sp', r)) : Moved .receives sp sp' := by
  obtain ⟨got, hgot, h⟩ := bind_eq_ok.mp h
  have hlen := length_overlay (Nread_length hgot)
  have hread : Moved .receives sp { sp with buffer := overlay got.buf sp.buffer } :=
    { moved_refl .receives sp with buffer := hlen }
  split at h
  · cases h
    exact hread
  · dsimp only at h
    split at h
    · cases h
    · obtain ⟨h, -⟩ := Prod.mk.inj (Except.ok.inj h)
      subst h
      exact hread.trans (receive_moved _ _)

theorem snd_moved {prot : Prot} {settings : Settings} {calls : StreamCalls}
    (h : snd prot settings calls sp = .ok (sp', r)) : Moved .sends sp sp' := by
  cases prot with
  | Ptcp => exact iperf_tcp_send_moved h
  | Pudp => exact iperf_udp_send_moved h

theorem rcv_moved {prot : Prot} {calls : StreamCalls} (h : rcv prot calls sp = .ok (sp', r)) :
    Moved .receives sp sp' := by
  cases prot with
  | Ptcp => exact iperf_tcp_recv_moved h
  | Pudp => exact iperf_udp_recv_moved h

end Transfers

section Control

variable {p p' : Process} {α β : Type}

/-- A change that leaves the state of the protocol alone. -/
def Calm (p p' : Process) : Prop := Change p p' ∧ p'.test.state = p.test.state

theorem calm_state {x : Native α} (h : Does Calm x p) :
    (final (x p)).test.state = p.test.state :=
  h.invariant (I := fun q => q.test.state = p.test.state) (fun _ _ hc hq => hc.2.trans hq) rfl

theorem Calm.takes {x : Native α} (h : Does Calm x p) : Does Change x p := h.mono fun _ _ => And.left

/-- What follows starts in the same state of the protocol. -/
theorem calm_bind {x : Native α} {f : α → Native β} (hx : Does Calm x p)
    (hf : ∀ a q, x p = .ok a q → q.test.state = p.test.state → Does Calm (f a) q) :
    Does Calm (x >>= f) p := by
  apply hx.bind
  intro a q h
  have hstate := calm_state hx
  rw [h] at hstate
  exact hf a q h hstate

theorem takes_fail {e : ℕ} (he : e ∈ reportable) : Does Calm (fail e : Native α) p :=
  Takes.bind (takes_modify ⟨.errno p e he, rfl⟩) fun _ q hq => by
    cases hq
    exact takes_throw fun _ => he

theorem takes_lift (x : Except Stuck α) : Does Calm (lift x) p := by
  cases x with
  | ok a => exact takes_pure a
  | error e => exact takes_throw (blamed_stuck e p)

theorem takes_readCtrl (count : ℤ) : Does Calm (readCtrl count) p := by
  have heq := readCtrl_eq (p := p) count
  cases hread : Nread count p.ctrl.reads with
  | ok r =>
    rw [hread] at heq
    exact .of_eq (y := pure r) heq (.single ⟨.control p _, rfl⟩) (takes_pure _)
  | error e =>
    rw [hread] at heq
    exact .of_eq (y := throw (.stuck e)) heq .refl (takes_throw (blamed_stuck e _))

theorem takes_writeCtrl (buf : List UInt8) : Does Calm (writeCtrl buf) p := by
  have heq := writeCtrl_eq (p := p) buf
  cases hwrite : Nwrite .Ptcp buf p.ctrl.writes with
  | ok w =>
    rw [hwrite] at heq
    exact .of_eq (y := pure w.result) heq (.single ⟨.control p _, rfl⟩) (takes_pure _)
  | error e =>
    rw [hwrite] at heq
    exact .of_eq (y := throw (.stuck e)) heq .refl (takes_throw (blamed_stuck e _))

theorem lift_process {x : Except Stuck α} {a : α} (h : lift x p = .ok a p') :
    x = .ok a ∧ p' = p := by
  cases x with
  | ok b =>
    cases h
    exact ⟨rfl, rfl⟩
  | error e => cases h

theorem fail_ne_ok {e : ℕ} {a : α} : (fail e : Native α) p ≠ .ok a p' := by
  intro h
  cases h

/-- What comes behind a check that may have failed. -/
theorem takes_unless {c : Prop} [Decidable c] {e : ℕ} {rest : Native α} (he : e ∈ reportable)
    (hrest : ¬ c → Does Calm rest p) :
    Does Calm (if c then (do let _ ← (fail e : Native Unit); rest) else rest) p := by
  apply takes_ite
  · intro _
    exact Takes.bind (takes_fail he) fun _ _ h => absurd h fail_ne_ok
  · exact hrest

end Control

section Results

variable {d : Direction} {p : Process} {sp sp' : Stream}

theorem told_refl (d : Direction) (sp : Stream) : Told d sp sp := Or.inl rfl

theorem Told.trans {sp'' : Stream} (h : Told d sp sp') (h' : Told d sp' sp'') :
    Told d sp sp'' := by
  rcases h' with rfl | ⟨v, rfl⟩
  · exact h
  · rcases h with rfl | ⟨w, rfl⟩
    · exact Or.inr ⟨v, rfl⟩
    · refine Or.inr ⟨v, ?_⟩
      cases d <;> rfl

theorem forall₂_told_refl (streams : List Stream) : List.Forall₂ (Told d) streams streams :=
  List.forall₂_same.mpr fun sp _ => told_refl d sp

theorem setResults_told {v : Fields} {streams streams' : List Stream}
    (h : setResults d v streams = some streams') : List.Forall₂ (Told d) streams streams' := by
  induction streams generalizing streams' with
  | nil => cases h
  | cons sp streams ih =>
    rw [setResults] at h
    split at h
    · cases h
      exact .cons (Or.inr ⟨v, rfl⟩) (forall₂_told_refl streams)
    · obtain ⟨rest, hrest, rfl⟩ := Option.map_eq_some_iff.mp h
      exact .cons (told_refl d sp) (ih hrest)

/-- Whatever the text is, a stream hears of what the other side has counted, and of nothing else. -/
theorem parseLines_told {v : Fields} {cs : List UInt8} {streams streams' : List Stream}
    {known : Bool} (h : parseLines d v cs streams = .ok (streams', known)) :
    List.Forall₂ (Told d) streams streams' := by
  induction v, cs, streams using parseLines.induct d with
  | case1 v streams =>
    rw [parseLines, if_pos rfl] at h
    cases h
    exact forall₂_told_refl _
  | case2 v cs streams hcs v' hset =>
    rw [parseLines, if_neg hcs] at h
    simp only [v'] at hset
    simp only [hset] at h
    cases h
    exact forall₂_told_refl _
  | case3 v cs streams hcs v' streams₁ hset hnext =>
    rw [parseLines, if_neg hcs] at h
    simp only [v'] at hset
    simp only [hset] at h
    split at h
    · cases h
    · rename_i hnext'
      rw [hnext] at hnext'
      cases hnext'
  | case4 v cs streams hcs v' streams₁ hset cs' hnext ih =>
    rw [parseLines_cons v hcs hset hnext] at h
    have hfirst := setResults_told hset
    have hrest := ih h
    exact List.forall₂_iff_get.mpr ⟨hfirst.length_eq.trans hrest.length_eq, fun i hi hi' =>
      ((List.forall₂_iff_get.mp hfirst).2 i hi (by rw [hrest.length_eq]; exact hi')).trans
        ((List.forall₂_iff_get.mp hrest).2 i _ hi')⟩

theorem takes_parse_results (v : Fields) (memory : List UInt8)
    (hstate : p.test.state = EXCHANGE_RESULTS) : Does Calm (parse_results v memory) p := by
  apply takes_get
  refine calm_bind (takes_lift _) fun results p₁ hresults _ => ?_
  obtain ⟨-, rfl⟩ := lift_process hresults
  split
  · exact takes_throw (blamed_stuck _ _)
  rename_i strp hstrp
  refine calm_bind (takes_lift _) fun remote_cpu_util p₂ hcpu _ => ?_
  obtain ⟨-, rfl⟩ := lift_process hcpu
  refine calm_bind (takes_modify ⟨.results _ _ remote_cpu_util hstate
    (forall₂_told_refl _), rfl⟩) fun _ p₃ hp₃ _ => ?_
  cases hp₃
  refine calm_bind (takes_lift _) fun lines p₄ hlines _ => ?_
  obtain ⟨streams, known⟩ := lines
  obtain ⟨hparse, rfl⟩ := lift_process hlines
  refine calm_bind (takes_modify ⟨.results _ streams remote_cpu_util hstate
    (parseLines_told hparse), rfl⟩) fun _ p₅ _ _ => ?_
  exact takes_ite (fun _ => takes_pure _) fun _ => takes_fail (by decide)

theorem takes_sendResults : Does Calm sendResults p := by
  apply takes_get
  refine calm_bind (takes_writeCtrl _) fun _ p₁ _ _ => ?_
  refine takes_unless (by decide) fun _ => ?_
  refine calm_bind (takes_writeCtrl _) fun _ p₂ _ _ => ?_
  exact takes_ite (fun _ => takes_fail (by decide)) fun _ => takes_pure _

theorem takes_receiveResults (m : Memory) (old : List UInt8)
    (hstate : p.test.state = EXCHANGE_RESULTS) : Does Calm (receiveResults m old) p := by
  refine calm_bind (takes_readCtrl _) fun r₁ p₁ _ hstate₁ => ?_
  refine takes_unless (by decide) fun _ => ?_
  refine takes_unless (by decide) fun _ => ?_
  refine calm_bind (takes_readCtrl _) fun r₂ p₂ _ hstate₂ => ?_
  refine takes_unless (by decide) fun _ => ?_
  exact takes_parse_results _ _ (hstate₂.trans (hstate₁.trans hstate))

theorem takes_iperf_exchange_results (m : Memory) (hstate : p.test.state = EXCHANGE_RESULTS) :
    Does Calm (iperf_exchange_results m) p := by
  apply takes_get
  split
  · exact calm_bind takes_sendResults fun _ p₁ _ hstate₁ =>
      takes_receiveResults _ _ (hstate₁.trans hstate)
  · exact calm_bind (takes_receiveResults _ _ hstate) fun _ _ _ _ => takes_sendResults

end Results

section Pass

variable {d : Direction} {p : Process} {pass : Pass}

theorem takes_package_parameters : Does Calm package_parameters p := by
  apply takes_get
  apply takes_ite
  · intro _
    exact calm_bind (takes_throw (blamed_stuck _ _)) fun _ _ h _ => by cases h
  · intro _
    refine calm_bind (takes_writeCtrl _) fun _ p₁ _ _ => ?_
    exact takes_ite (fun _ => takes_fail (by decide)) fun _ => takes_pure _

theorem code_reportable (e : ConnectionError) : e.code ∈ reportable := by
  cases e <;> decide

theorem takes_createStreams {n : ℕ} {connections : List Connection}
    (hstate : p.test.state = CREATE_STREAMS) : Does Calm (createStreams n connections) p := by
  induction n generalizing connections p with
  | zero => exact takes_pure _
  | succ n ih =>
    cases connections with
    | nil => exact takes_throw (blamed_stuck _ _)
    | cons connection connections =>
      cases connection with
      | refused e => exact takes_fail (code_reportable e)
      | opened socket buffer =>
        rw [createStreams]
        refine calm_bind (takes_modify ⟨.created p socket _ hstate, rfl⟩) fun _ q _ hq => ?_
        exact ih (hq.trans hstate)

theorem takes_protocolInit (hstate : p.test.state = TEST_START) : Does Calm protocolInit p := by
  apply takes_get
  split
  · exact takes_pure _
  · refine calm_bind (takes_lift _) fun _ q _ hq => ?_
    exact takes_modify ⟨.armed q (hq.trans hstate), rfl⟩

theorem takes_iperf_init_test (hstate : p.test.state = TEST_START) :
    Does Calm (iperf_init_test pass) p := by
  refine calm_bind (takes_protocolInit hstate) fun _ q _ hq => ?_
  exact takes_modify ⟨.started q _ _ _ pass.start_times (hq.trans hstate), rfl⟩

theorem transfer_moved {call : Stream → Except Stuck (Stream × ℤ)}
    (hcall : ∀ sp sp' r, call sp = .ok (sp', r) → Moved d sp sp') {ready : List ℕ}
    {streams streams' : List Stream} {bytes_sent bytes_sent' : iperf_size_t} {left : Bool}
    (h : transfer call ready streams bytes_sent = .ok (streams', bytes_sent', left)) :
    List.Forall₂ (Moved d) streams streams' := by
  induction streams generalizing ready bytes_sent streams' with
  | nil =>
    cases h
    exact .nil
  | cons sp streams ih =>
    rw [transfer] at h
    split at h
    · obtain ⟨⟨sp₁, r⟩, hsp, h⟩ := bind_eq_ok.mp h
      dsimp only at h
      split at h
      · cases h
        exact .cons (hcall _ _ _ hsp) (List.forall₂_same.mpr fun sp _ => moved_refl d sp)
      · obtain ⟨⟨rest, bytes, left₁⟩, hrest, h⟩ := bind_eq_ok.mp h
        cases h
        exact .cons (hcall _ _ _ hsp) (ih hrest)
    · obtain ⟨⟨rest, bytes, left₁⟩, hrest, h⟩ := bind_eq_ok.mp h
      cases h
      exact .cons (moved_refl d sp) (ih hrest)

theorem takes_transferAll {call : Stream → Except Stuck (Stream × ℤ)} {e : ℕ}
    (hcall : ∀ sp sp' r, call sp = .ok (sp', r) → Moved p.test.direction sp sp')
    (he : e ∈ reportable) (hstate : p.test.state = TEST_RUNNING) :
    Does Calm (transferAll pass call e) p := by
  apply takes_get
  refine calm_bind (takes_lift _) fun moved q hmoved _ => ?_
  obtain ⟨streams, bytes_sent, left⟩ := moved
  obtain ⟨htransfer, rfl⟩ := lift_process hmoved
  refine calm_bind (takes_modify ⟨.transferred q streams bytes_sent hstate
    (transfer_moved hcall htransfer), rfl⟩) fun _ _ _ _ => ?_
  exact takes_ite (fun _ => takes_fail he) fun _ => takes_pure _

theorem takes_iperf_send (hd : p.test.direction = .sends) (hstate : p.test.state = TEST_RUNNING) :
    Does Calm (iperf_send pass) p := by
  apply takes_get
  split
  · exact takes_ite (fun _ => takes_fail (by decide)) fun _ => takes_pure _
  · exact takes_pure _
  · apply takes_transferAll _ (by decide) hstate
    rw [hd]
    exact fun sp sp' r h => snd_moved h

theorem takes_iperf_recv (hd : p.test.direction = .receives)
    (hstate : p.test.state = TEST_RUNNING) : Does Calm (iperf_recv pass) p := by
  apply takes_get
  split
  · exact takes_fail (by decide)
  · exact takes_pure _
  · apply takes_transferAll _ (by decide) hstate
    rw [hd]
    exact fun sp sp' r h => rcv_moved h

theorem takes_stats (times : ℕ → Timeval) (hstate : p.test.state = TEST_RUNNING) :
    Does Calm (iperf_stats_callback times) p :=
  takes_modify ⟨.interval p times hstate, rfl⟩

theorem takes_print_intermediate : Does Calm iperf_print_intermediate p := by
  apply takes_get
  exact takes_lift _

/-- While the test is running the report changes nothing. -/
theorem takes_reporter (hstate : p.test.state = TEST_RUNNING) :
    Does Calm iperf_reporter_callback p := by
  apply takes_get
  rw [if_pos (Or.inl hstate)]
  exact takes_print_intermediate

end Pass

section Loop

variable {p : Process} {pass : Pass}

theorem takes_tell (state : ℕ) :
    Does Calm (do if (← writeCtrl [UInt8.ofNat state]) < 0 then fail IESENDMESSAGE) p := by
  refine calm_bind (takes_writeCtrl _) fun _ _ _ _ => ?_
  exact takes_ite (fun _ => takes_fail (by decide)) fun _ => takes_pure _

/-- The state and its message. -/
theorem takes_announce {state : ℕ} (h : Change p { p with test := { p.test with state } }) :
    Does Change (announce state) p :=
  Takes.bind (takes_modify h) fun _ _ _ => Calm.takes (takes_tell state)

def Process.summarize (p : Process) (sp : Stream) : Process :=
  { p with test := { p.test with
    total_sent := sum (·.bytes_sent) p.test.streams
    total_recv := sum (·.bytes_received) p.test.streams
    total_time := timeval_diff sp.result.start_time sp.result.end_time } }

/-- The loop comes to its end only if every stream has an interval. -/
theorem printIntervals_some {streams : List Stream} {bytes bytes' : iperf_size_t}
    (h : printIntervals streams bytes = .ok bytes') :
    ∀ sp ∈ streams, sp.result.interval_results ≠ [] := by
  induction streams generalizing bytes with
  | nil => exact fun sp hsp => by cases hsp
  | cons sp streams ih =>
    obtain ⟨-, -, h⟩ := bind_eq_ok.mp h
    cases hlast : sp.result.last_interval_results with
    | none =>
      rw [hlast] at h
      cases h
    | some ir =>
      rw [hlast] at h
      refine List.forall_mem_cons.mpr ⟨?_, ih h⟩
      rintro hnil
      rw [StreamResult.last_interval_results, hnil] at hlast
      cases hlast

theorem lift_error {α : Type} {x : Except Stuck α} {e : Stuck} (h : x = .error e) :
    lift x p = .error (.stuck e) p := by
  rw [h]
  rfl

theorem reporter_displays (hstate : p.test.state = DISPLAY_RESULTS) :
    iperf_reporter_callback p = (do
      iperf_print_intermediate
      iperf_print_results) p := by
  have hrunning : ¬ (p.test.state = TEST_RUNNING ∨ p.test.state = STREAM_RUNNING) := by
    rw [hstate]
    decide
  rw [iperf_reporter_callback, get_bind, if_neg hrunning, if_pos hstate]

/-- The report at the end of the test, if its numbers can be printed. -/
theorem reporter_summarizes (hstate : p.test.state = DISPLAY_RESULTS) {sp : Stream}
    {rest : List Stream} (hstreams : p.test.streams = sp :: rest)
    (hintermediate : printIntermediate p.test = .ok ())
    (hresults : printResults p.test (timeval_diff sp.result.start_time sp.result.end_time) =
      .ok ()) :
    iperf_reporter_callback p = .ok () (p.summarize sp) := by
  have hprinted : iperf_print_intermediate p = .ok () p := by
    rw [iperf_print_intermediate, get_bind, hintermediate]
    rfl
  rw [reporter_displays hstate, bind_ok hprinted, iperf_print_results, get_bind, hstreams]
  exact lift_bind_ok hresults

/-- Otherwise it has no end. -/
theorem reporter_cases (hstate : p.test.state = DISPLAY_RESULTS) :
    (∃ e, iperf_reporter_callback p = .error (.stuck e) p) ∨
      ∃ sp rest, p.test.streams = sp :: rest ∧
        (∀ sp ∈ p.test.streams, sp.result.interval_results ≠ []) ∧
        iperf_reporter_callback p = .ok () (p.summarize sp) := by
  cases hintermediate : printIntermediate p.test with
  | error e =>
    refine Or.inl ⟨e, ?_⟩
    rw [reporter_displays hstate, iperf_print_intermediate]
    exact bind_error (lift_error hintermediate)
  | ok u =>
    have hprinted : iperf_print_intermediate p = .ok () p := by
      rw [iperf_print_intermediate, get_bind, hintermediate]
      rfl
    obtain ⟨bytes, hintervals, -⟩ := bind_eq_ok.mp hintermediate
    cases hstreams : p.test.streams with
    | nil =>
      refine Or.inl ⟨.crashed, ?_⟩
      rw [reporter_displays hstate, bind_ok hprinted, iperf_print_results, get_bind, hstreams]
      rfl
    | cons sp rest =>
      cases hresults : printResults p.test
          (timeval_diff sp.result.start_time sp.result.end_time) with
      | error e =>
        refine Or.inl ⟨e, ?_⟩
        rw [reporter_displays hstate, bind_ok hprinted, iperf_print_results, get_bind, hstreams]
        exact bind_error (lift_error hresults)
      | ok u' =>
        refine Or.inr ⟨sp, rest, rfl, ?_, reporter_summarizes hstate hstreams hintermediate hresults⟩
        rw [← hstreams]
        exact printIntervals_some hintervals

/-- The report and the last message. What has been displayed is what the streams hold. -/
theorem takes_iperf_client_end (hstate : p.test.state = DISPLAY_RESULTS) :
    Does Change iperf_client_end p := by
  rcases reporter_cases hstate with ⟨e, hstuck⟩ | ⟨sp, rest, hstreams, hintervals, hdisplay⟩
  · exact .of_eq (y := throw (.stuck e)) (bind_error hstuck) .refl
      (takes_throw (blamed_stuck _ _))
  · have hend : iperf_client_end p = (do
        if (← writeCtrl [UInt8.ofNat IPERF_DONE]) < 0 then fail IESENDMESSAGE)
          { p with test := { (p.summarize sp).test with state := IPERF_DONE } } :=
      bind_ok hdisplay
    exact .of_eq hend (.single (.displayed p sp rest hstate hstreams hintervals))
      (Calm.takes (takes_tell IPERF_DONE))

theorem takes_ignore {x : Native Unit} (h : Does Change x p) : Does Change (ignore x) p := by
  have hsteps := h.steps
  cases hx : x p with
  | ok u q =>
    rw [hx] at hsteps
    exact .of_eq (y := pure u) (by simp only [ignore, hx]; rfl) hsteps (takes_pure u)
  | error e q =>
    rw [hx] at hsteps
    cases e with
    | failed =>
      exact .of_eq (y := pure ()) (by simp only [ignore, hx]; rfl) hsteps (takes_pure ())
    | stuck e =>
      exact .of_eq (y := throw (.stuck e)) (by simp only [ignore, hx]; rfl) hsteps
        (takes_throw (blamed_stuck e q))

theorem takes_readState (hstate : p.test.state ≠ IPERF_DONE) : Does Change readState p := by
  apply takes_get
  refine Takes.bind (takes_set (.control p _)) fun _ q hq => ?_
  cases hq
  split
  · exact takes_modify (.received _ _ hstate)
  · exact takes_throw (blamed_stuck _ _)
  · exact Calm.takes (takes_fail (by decide))
  · exact Calm.takes (takes_fail (by decide))

/-- The upper bytes of `state` are always 0. -/
theorem Change.state_lt {p' : Process} (h : Change p p') (hp : p.test.state < 256) :
    p'.test.state < 256 := by
  cases h with
  | received b _ =>
    have hb := b.toNat_lt
    simp only
    omega
  | ended _ => exact (by decide : TEST_END < 256)
  | displayed _ _ _ _ _ => exact (by decide : IPERF_DONE < 256)
  | _ => exact hp

theorem takes_iperf_handle_message_client (pass : Pass) (hp : p.test.state < 256)
    (hstate : p.test.state ≠ IPERF_DONE) :
    Does Change (iperf_handle_message_client pass) p := by
  have hread := takes_readState hstate
  refine hread.bind fun _ q hq => ?_
  -- A message is one byte, so -1 and -2 never come.
  have hbyte : q.test.state < 256 := by
    have hfinal := hread.invariant (I := fun q => q.test.state < 256)
      (fun _ _ hc => hc.state_lt) hp
    rwa [hq] at hfinal
  apply takes_get
  refine takes_ite (fun _ => Calm.takes takes_package_parameters) fun _ => ?_
  refine takes_ite (fun h => Calm.takes (takes_get (takes_createStreams h))) fun _ => ?_
  refine takes_ite (fun h => Calm.takes (takes_iperf_init_test h)) fun _ => ?_
  refine takes_ite (fun _ => takes_pure _) fun _ => ?_
  refine takes_ite (fun h => Calm.takes (takes_iperf_exchange_results _ h)) fun _ => ?_
  refine takes_ite (fun h => takes_ignore (takes_iperf_client_end h)) fun _ => ?_
  refine takes_ite (fun _ => takes_pure _) fun _ => ?_
  refine takes_ite (fun _ => Calm.takes (takes_fail (by decide))) fun _ => ?_
  refine takes_ite (fun h => ?_) fun _ => ?_
  · exact absurd (h ▸ hbyte) (by decide)
  refine takes_ite (fun h => ?_) fun _ => ?_
  · exact absurd (h ▸ hbyte) (by decide)
  exact Calm.takes (takes_fail (by decide))

theorem direction_eq (hrole : p.test.role = .client) :
    p.test.direction = if p.test.reverse then .receives else .sends := by
  rw [Test.direction, hrole]
  cases p.test.reverse <;> rfl

theorem takes_transferData (pass : Pass) (hrole : p.test.role = .client)
    (hstate : p.test.state = TEST_RUNNING) :
    Does Calm (transferData pass) p := by
  have hdirection := direction_eq hrole
  apply takes_get
  apply takes_ite
  · intro h
    rw [if_pos h] at hdirection
    exact takes_iperf_recv hdirection hstate
  · intro h
    rw [if_neg h] at hdirection
    exact takes_iperf_send hdirection hstate

theorem takes_performCallbacks (pass : Pass) (hstate : p.test.state = TEST_RUNNING) :
    Does Calm (performCallbacks pass) p := by
  apply takes_get
  apply takes_ite
  · intro _
    refine calm_bind (takes_stats _ hstate) fun _ q _ hq => ?_
    exact takes_ite (fun _ => takes_reporter (hq.trans hstate)) fun _ => takes_pure _
  · intro _
    exact takes_ite (fun _ => takes_reporter hstate) fun _ => takes_pure _

theorem takes_sendTestEnd (hstate : p.test.state = TEST_RUNNING) :
    Does Change (sendTestEnd pass) p := by
  apply takes_get
  apply takes_ite
  · intro _
    refine Takes.bind (takes_modify (.cpu p _ hstate)) fun _ q hq => ?_
    cases hq
    refine Takes.bind (takes_modify (.interval _ _ hstate)) fun _ q hq => ?_
    cases hq
    exact takes_announce (.ended _ hstate)
  · intro _
    exact takes_pure _

theorem takes_whileRunning (hrole : p.test.role = .client) (hstate : p.test.state = TEST_RUNNING) :
    Does Change (whileRunning pass) p := by
  have htransfer := takes_transferData pass hrole hstate
  refine (Calm.takes htransfer).bind fun _ q hq => ?_
  have hq' : q.test.state = TEST_RUNNING := by
    have hcalm := calm_state htransfer
    rw [hq] at hcalm
    exact hcalm.trans hstate
  have hcallbacks := takes_performCallbacks pass hq'
  refine (Calm.takes hcallbacks).bind fun _ r hr => ?_
  have hr' : r.test.state = TEST_RUNNING := by
    have hcalm := calm_state hcallbacks
    rw [hr] at hcalm
    exact hcalm.trans hq'
  exact takes_sendTestEnd hr'

theorem Change.role {p' : Process} (h : Change p p') : p'.test.role = p.test.role := by
  cases h <;> rfl

theorem Change.direction {p' : Process} (h : Change p p') :
    p'.test.direction = p.test.direction := by
  cases h <;> rfl

theorem takes_loopBody (hrole : p.test.role = .client) (hp : p.test.state < 256)
    (hstate : p.test.state ≠ IPERF_DONE) : Does Change (loopBody pass) p := by
  rw [loopBody]
  split
  · exact takes_ite (fun _ => Calm.takes (takes_fail (by decide))) fun _ => takes_pure _
  · exact takes_pure _
  · have hrunning : ∀ q : Process, q.test.role = .client →
        Does Change (do
          let p ← get
          if p.test.state = TEST_RUNNING then whileRunning pass) q := by
      intro q hq
      apply takes_get
      exact takes_ite (fun h => takes_whileRunning hq h) fun _ => takes_pure _
    apply takes_ite
    · intro _
      have hmessage := takes_iperf_handle_message_client pass hp hstate
      refine hmessage.bind fun _ q hq => hrunning q ?_
      have hfinal := hmessage.invariant (I := fun q => q.test.role = .client)
        (fun _ _ hc h => hc.role.trans h) hrole
      rwa [hq] at hfinal
    · intro _
      exact hrunning p hrole

theorem takes_iperf_connect (cookie : Option (List UInt8)) :
    Does Change (iperf_connect cookie) p := by
  cases cookie with
  | none => exact Calm.takes (takes_fail (by decide))
  | some cookie =>
    refine Takes.bind (takes_modify (.cookie p _)) fun _ _ _ => ?_
    refine Takes.bind (Calm.takes (takes_writeCtrl _)) fun _ _ _ => ?_
    exact takes_ite (fun _ => Calm.takes (takes_fail (by decide))) fun _ => takes_pure _

end Loop

end Iperf
