import VideoEditorOffloading.IperfSteps
import VideoEditorOffloading.TransitionSystems

/-! # Runs of the client

What holds in every state of every run, whatever the server sends and however the system calls
end. -/
namespace Iperf

open StatefulPrograms TransitionSystems

section Streams

variable {d : Direction} {sp sp' : Stream} {streams streams' : List Stream}

/-- The identifiers of `n` streams. There is no stream 2. -/
def streamIds (n : ℕ) : List ℤ := (List.range n).map fun i : ℕ => if i = 0 then 1 else i + 2

theorem streamIds_succ (n : ℕ) :
    streamIds (n + 1) = streamIds n ++ [if n = 0 then 1 else (n : ℤ) + 2] := by
  rw [streamIds, List.range_succ, List.map_append]
  rfl

theorem streamIds_nodup (n : ℕ) : (streamIds n).Nodup := by
  refine List.Nodup.map_on ?_ List.nodup_range
  intro i _ j _ h
  split at h <;> split at h <;> omega

/-- The intervals of a stream say when each byte of its own has gone. -/
structure Reckoned (d : Direction) (rp : StreamResult) : Prop where
  accounted : Accounted d rp
  chained : Chained rp

structure Kept (d : Direction) (sp sp' : Stream) : Prop where
  id : sp'.id = sp.id
  reckoned : Reckoned d sp.result → Reckoned d sp'.result

theorem kept_moved (h : Moved d sp sp') : Kept d sp sp' :=
  ⟨h.id, fun hsp => ⟨h.accounted hsp.accounted, h.chained hsp.chained⟩⟩

theorem kept_told (h : Told d sp sp') : Kept d sp sp' := by
  rcases h with rfl | ⟨v, rfl⟩
  · exact ⟨rfl, id⟩
  · refine ⟨setResults_id v, ?_⟩
    intro hsp
    cases d with
    | sends => exact ⟨hsp.accounted, hsp.chained.next, hsp.chained.last⟩
    | receives => exact ⟨hsp.accounted, hsp.chained.next, hsp.chained.last⟩

theorem kept_stats (now : Timeval) : Kept d sp (sp.stats d now) :=
  ⟨rfl, fun hsp => ⟨stats_accounted now hsp.accounted, stats_chained d now hsp.chained⟩⟩

theorem kept_start (now : Timeval) : Kept d sp (sp.start now) := by
  refine ⟨rfl, ?_⟩
  intro hsp
  refine ⟨?_, hsp.chained.next, hsp.chained.last⟩
  have haccounted := hsp.accounted
  cases d with
  | sends => exact haccounted
  | receives => exact haccounted

theorem kept_armed : Kept d sp { sp with send_timer := true } := ⟨rfl, id⟩

theorem forall₂_mapIdx {R : Stream → Stream → Prop} {f : ℕ → Stream → Stream}
    (h : ∀ i sp, R sp (f i sp)) : List.Forall₂ R streams (streams.mapIdx f) := by
  refine List.forall₂_iff_get.mpr ⟨List.length_mapIdx.symm, ?_⟩
  intro i hi hi'
  simp only [List.get_eq_getElem, List.getElem_mapIdx]
  exact h i _

theorem map_eq_of_forall₂ {β : Type} {g : Stream → β}
    (h : List.Forall₂ (fun sp sp' => g sp' = g sp) streams streams') :
    streams'.map g = streams.map g := by
  induction h with
  | nil => rfl
  | cons hsp _ ih => rw [List.map_cons, List.map_cons, hsp, ih]

structure Orderly (d : Direction) (streams : List Stream) : Prop where
  ids : streams.map (·.id) = streamIds streams.length
  reckoned : ∀ sp ∈ streams, Reckoned d sp.result

theorem Orderly.kept (h : Orderly d streams) (hkept : List.Forall₂ (Kept d) streams streams') :
    Orderly d streams' := by
  constructor
  · rw [map_eq_of_forall₂ (hkept.imp fun _ _ => Kept.id), ← hkept.length_eq]
    exact h.ids
  · obtain ⟨-, hreckoned⟩ := h
    induction hkept with
    | nil => exact fun sp h => by cases h
    | cons hsp _ ih =>
      obtain ⟨hfirst, hrest⟩ := List.forall_mem_cons.mp hreckoned
      exact List.forall_mem_cons.mpr ⟨hsp.reckoned hfirst, ih hrest⟩

theorem Orderly.created (h : Orderly d streams) (socket : ℕ) (buffer : List UInt8) :
    Orderly d (iperf_add_stream streams { socket, buffer }) := by
  have hnew : Reckoned d ({} : StreamResult) := by
    refine ⟨?_, List.isChain_nil, fun ir hir => by cases hir⟩
    cases d with
    | sends => rfl
    | receives => rfl
  rw [iperf_add_stream]
  cases hstreams : streams with
  | nil =>
    constructor
    · rfl
    · simpa using hnew
  | cons sp rest =>
    rw [hstreams] at h
    rw [if_neg (by simp)]
    constructor
    · rw [List.map_append, h.ids, List.length_append, List.length_singleton, streamIds_succ,
        if_neg (by simp)]
      rfl
    · intro sp' hsp'
      rcases List.mem_append.mp hsp' with hsp' | hsp'
      · exact h.reckoned sp' hsp'
      · rw [List.mem_singleton.mp hsp']
        exact hnew

end Streams

section Invariant

variable {p p' : Process} {e : ℕ}

/-- The summary: the sums over the streams, and the time of the first one. -/
structure Summarized (test : Test) : Prop where
  sent : test.total_sent = sum (·.bytes_sent) test.streams
  recv : test.total_recv = sum (·.bytes_received) test.streams
  time : ∃ sp ∈ test.streams.head?,
    test.total_time = timeval_diff sp.result.start_time sp.result.end_time
  intervals : ∀ sp ∈ test.streams, sp.result.interval_results ≠ []

structure Blank (test : Test) : Prop where
  sent : test.total_sent = 0
  recv : test.total_recv = 0
  time : test.total_time = 0

structure Fresh (test : Test) : Prop where
  role : test.role = .client
  state : test.state = 0
  streams : test.streams = []
  blank : Blank test

/-- The invariant; `e` is what the global `i_errno` was at the beginning. -/
structure Sound (e : ℕ) (p : Process) : Prop where
  role : p.test.role = .client
  state : p.test.state < 256
  errno : p.i_errno = e ∨ p.i_errno ∈ reportable
  streams : Orderly p.test.direction p.test.streams
  totals : Blank p.test ∨ p.test.state = IPERF_DONE ∧ Summarized p.test

theorem Fresh.sound (h : Fresh p.test) : Sound p.i_errno p := by
  refine ⟨h.role, ?_, Or.inl rfl, ?_, Or.inl h.blank⟩
  · rw [h.state]
    decide
  · rw [h.streams]
    exact ⟨rfl, fun sp hsp => by cases hsp⟩

theorem Sound.blank (h : Sound e p) {state : ℕ} (hstate : p.test.state = state)
    (hne : state ≠ IPERF_DONE) : Blank p.test := by
  rcases h.totals with hblank | ⟨hdone, -⟩
  · exact hblank
  · exact absurd (hstate.symm.trans hdone) hne

theorem Change.sound (hc : Change p p') (h : Sound e p) : Sound e p' := by
  have hlt := hc.state_lt h.state
  cases hc with
  | errno e' he' => exact ⟨h.role, hlt, Or.inr he', h.streams, h.totals⟩
  | control ctrl => exact ⟨h.role, hlt, h.errno, h.streams, h.totals⟩
  | cookie cookie =>
    refine ⟨h.role, hlt, h.errno, h.streams, ?_⟩
    rcases h.totals with hblank | ⟨hdone, hsum⟩
    · exact Or.inl ⟨hblank.sent, hblank.recv, hblank.time⟩
    · exact Or.inr ⟨hdone, hsum.sent, hsum.recv, hsum.time, hsum.intervals⟩
  | received b hstate =>
    have hblank := h.blank rfl hstate
    exact ⟨h.role, hlt, h.errno, h.streams, Or.inl ⟨hblank.sent, hblank.recv, hblank.time⟩⟩
  | created socket buffer hstate =>
    have hblank := h.blank hstate (by decide)
    exact ⟨h.role, hlt, h.errno, h.streams.created socket buffer,
      Or.inl ⟨hblank.sent, hblank.recv, hblank.time⟩⟩
  | armed hstate =>
    have hblank := h.blank hstate (by decide)
    refine ⟨h.role, hlt, h.errno, h.streams.kept ?_,
      Or.inl ⟨hblank.sent, hblank.recv, hblank.time⟩⟩
    exact List.forall₂_map_right_iff.mpr (List.forall₂_same.mpr fun _ _ => kept_armed)
  | started timer stats_timer reporter_timer times hstate =>
    have hblank := h.blank hstate (by decide)
    exact ⟨h.role, hlt, h.errno, h.streams.kept (forall₂_mapIdx fun _ _ => kept_start _),
      Or.inl ⟨hblank.sent, hblank.recv, hblank.time⟩⟩
  | transferred streams bytes_sent hstate hmoved =>
    have hblank := h.blank hstate (by decide)
    exact ⟨h.role, hlt, h.errno, h.streams.kept (hmoved.imp fun _ _ => kept_moved),
      Or.inl ⟨hblank.sent, hblank.recv, hblank.time⟩⟩
  | interval times hstate =>
    have hblank := h.blank hstate (by decide)
    exact ⟨h.role, hlt, h.errno, h.streams.kept (forall₂_mapIdx fun _ _ => kept_stats _),
      Or.inl ⟨hblank.sent, hblank.recv, hblank.time⟩⟩
  | cpu cpu_util hstate =>
    have hblank := h.blank hstate (by decide)
    exact ⟨h.role, hlt, h.errno, h.streams, Or.inl ⟨hblank.sent, hblank.recv, hblank.time⟩⟩
  | ended hstate =>
    have hblank := h.blank hstate (by decide)
    exact ⟨h.role, hlt, h.errno, h.streams, Or.inl ⟨hblank.sent, hblank.recv, hblank.time⟩⟩
  | results streams remote_cpu_util hstate htold =>
    have hblank := h.blank hstate (by decide)
    exact ⟨h.role, hlt, h.errno, h.streams.kept (htold.imp fun _ _ => kept_told),
      Or.inl ⟨hblank.sent, hblank.recv, hblank.time⟩⟩
  | displayed sp rest hstate hstreams hintervals =>
    refine ⟨h.role, hlt, h.errno, h.streams, Or.inr ⟨rfl, rfl, rfl, ⟨sp, ?_, rfl⟩, hintervals⟩⟩
    rw [hstreams]
    rfl

end Invariant

section Runs

variable {p : Process} {x : Client}

abbrev Run (p : Process) (x : Client) : Prop := Execution next (fun _ _ => True) ⟨p, .starting⟩ x

structure Reached (e : ℕ) (x : Client) : Prop where
  sound : Sound e x.process
  running : x.status = .running → x.process.test.state ≠ IPERF_DONE
  failed : x.status = .ended .failed → x.process.i_errno ∈ reportable

theorem reached_after {e : ℕ} {y : Native Unit} {q : Process} (htakes : Does Change y q)
    (hq : Sound e q) : Reached e (.after (y q)) := by
  have hsound := htakes.invariant (fun _ _ => Change.sound) hq
  cases hy : y q with
  | ok u p =>
    rw [hy] at hsound
    rw [Client.after]
    split
    · exact ⟨hsound, (fun h => by cases h), (fun h => by cases h)⟩
    · rename_i hdone
      exact ⟨hsound, fun _ => hdone, (fun h => by cases h)⟩
  | error e' p =>
    rw [hy] at hsound
    refine ⟨hsound, (fun h => by cases h), ?_⟩
    intro h
    exact htakes.error e' p hy (Status.ended.inj h)

theorem next_reached {e : ℕ} {x' : Client} {event : Event} (h : Reached e x)
    (hnext : next x event = some x') : Reached e x' := by
  cases event with
  | connect cookie =>
    obtain ⟨-, hnext⟩ := Option.ite_none_right_eq_some.mp hnext
    obtain rfl := Option.some.inj hnext
    exact reached_after (takes_iperf_connect cookie) h.sound
  | pass pass =>
    obtain ⟨hrunning, hnext⟩ := Option.ite_none_right_eq_some.mp hnext
    obtain rfl := Option.some.inj hnext
    exact reached_after (takes_loopBody h.sound.role h.sound.state (h.running hrunning)) h.sound

theorem Run.reached (hfresh : Fresh p.test) (h : Run p x) : Reached p.i_errno x := by
  refine Execution.invariant h ?_ fun _ _ _ _ hnext hx => next_reached hx hnext
  exact ⟨hfresh.sound, (fun h => by cases h), (fun h => by cases h)⟩

def refusedClient : Process where
  test := { role := .client, settings := { blksize := 2 } }
  ctrl := { reads := [.data [10, 1, 2, 255]], writes := List.replicate 40 (.took 100) }

def refusedPass (expired : Bool) : Pass where
  select := .ready
  ctrl_ready := !expired
  connections := [.opened 7 fun _ => 0]
  stream_select := .ready
  stream_ready := [7]
  calls := fun _ => { writes := [.took 1, .took 1] }
  expired := expired

def refusedRun : Option Client :=
  runEvents next ⟨refusedClient, .starting⟩
    [.connect (some (List.replicate 37 65)), .pass (refusedPass false), .pass (refusedPass false),
      .pass (refusedPass false), .pass (refusedPass true)]

theorem refusedClient_fresh : Fresh refusedClient.test := ⟨rfl, rfl, rfl, rfl, rfl, rfl⟩

theorem refusedRun_run {x : Client} (h : refusedRun = some x) : Run refusedClient x :=
  Execution.append .refl (fun _ _ _ => trivial) h

/-- In every reachable state each stream's own counter is the sum of its intervals and of what has
moved since, and the intervals follow one another. -/
theorem streams_reckoned (hfresh : Fresh p.test) (h : Run p x) :
    ∀ sp ∈ x.process.test.streams,
      (sp.result.total x.process.test.direction =
        (sp.result.interval_results.map (·.bytes_transferred)).sum +
          sp.result.this_interval x.process.test.direction) ∧
      sp.result.interval_results.IsChain (fun a b => b.interval_start_time = a.interval_end_time) ∧
      ∀ ir ∈ sp.result.interval_results.getLast?, ir.interval_end_time = sp.result.end_time := by
  intro sp hsp
  have hreckoned := (h.reached hfresh).sound.streams.reckoned sp hsp
  exact ⟨hreckoned.accounted, hreckoned.chained.next, hreckoned.chained.last⟩

theorem streams_reckoned_refused : ∃ x : Client, (∃ sp ∈ x.process.test.streams,
      sp.result.bytes_sent = 4 ∧ sp.result.bytes_sent =
        (sp.result.interval_results.map (·.bytes_transferred)).sum +
          sp.result.bytes_sent_this_interval) := by
  have hfacts : refusedRun.map (fun x : Client => (x.process.test.direction,
      x.process.test.streams.map (·.result.bytes_sent))) = some (.sends, [4]) := by decide +kernel
  obtain ⟨x, hx, hfacts⟩ := Option.map_eq_some_iff.mp hfacts
  obtain ⟨hdirection, hstreams⟩ := Prod.mk.inj hfacts
  obtain ⟨sp, hsp, hsent⟩ : ∃ sp ∈ x.process.test.streams, sp.result.bytes_sent = 4 :=
    List.mem_map.mp (hstreams ▸ List.mem_singleton_self (4 : UInt64))
  have hreckoned := (streams_reckoned refusedClient_fresh (refusedRun_run hx) sp hsp).1
  rw [hdirection] at hreckoned
  exact ⟨x, sp, hsp, hsent, hreckoned⟩

/-- The getters find nothing while the client runs, and afterwards the sums or still nothing. -/
theorem summary_at_end (hfresh : Fresh p.test) (h : Run p x) :
    (x.status = .running → Blank x.process.test) ∧
      (Blank x.process.test ∨ Summarized x.process.test) := by
  have hreached := h.reached hfresh
  constructor
  · intro hrunning
    exact hreached.sound.blank rfl (hreached.running hrunning)
  · exact hreached.sound.totals.imp_right And.right

def exampleServer : Test where
  role := .server
  cpu_util := 1 / 2
  streams := [{ socket := 5, id := 1, buffer := [0, 0], result := { bytes_received := 2 } }]

def exampleReads : Reads :=
  [.data [9], .data [10, 1, 2], .data (13 :: resultsMessage exampleServer), .data [14]]

def exampleClient : Process where
  test := { role := .client, settings := { blksize := 2 } }
  ctrl := { reads := exampleReads, writes := List.replicate 20000 (.took 100) }

def examplePass (ctrl_ready expired : Bool) : Pass where
  select := .ready
  ctrl_ready := ctrl_ready
  connections := [.opened 7 fun _ => 0]
  stream_select := .ready
  stream_ready := [7]
  calls := fun _ => { writes := [.took 1, .refused .EINTR, .took 1], reads := [.data [1, 2]] }
  expired := expired
  end_times := fun _ => ⟨1, 0⟩

def exampleEvents : List Event :=
  [.connect (some (List.replicate 37 65)), .pass (examplePass true false),
    .pass (examplePass true false), .pass (examplePass true false), .pass (examplePass true false),
    .pass (examplePass false true), .pass (examplePass true false), .pass (examplePass true false)]

theorem exampleClient_fresh : Fresh exampleClient.test := ⟨rfl, rfl, rfl, rfl, rfl, rfl⟩

/-- The client sends two blocks, and the server says that it has received one of them. -/
theorem summary_at_end_example : ∃ x : Client, x.status = .returned ∧
    x.process.test.total_sent = 4 ∧ x.process.test.total_recv = 2 ∧ Summarized x.process.test := by
  have hfacts : (runEvents next ⟨exampleClient, .starting⟩ exampleEvents).map (fun x : Client =>
      (x.status, x.process.test.total_sent, x.process.test.total_recv)) =
        some (.returned, 4, 2) := by decide +kernel
  obtain ⟨x, hx, hfacts⟩ := Option.map_eq_some_iff.mp hfacts
  simp only [Prod.mk.injEq] at hfacts
  obtain ⟨hreturned, hsent, hrecv⟩ := hfacts
  have hrun : Run exampleClient x := Execution.append .refl (fun _ _ _ => trivial) hx
  refine ⟨x, hreturned, hsent, hrecv, ?_⟩
  rcases (summary_at_end exampleClient_fresh hrun).2 with hblank | hsum
  · exact absurd (hblank.sent.symm.trans hsent) (by decide)
  · exact hsum

def knownMessages : List UInt8 := [9, 10, 1, 2, 13, 14, 16, 11]

def Process.hears (p : Process) (b : UInt8) (left : Reads) : Process :=
  { p.reads left with test := { p.test with state := b.toNat } }

theorem readState_spec {b : UInt8} {bs : List UInt8} {reads : Reads} (hstate : p.test.state < 256)
    (hreads : p.ctrl.reads = .data (b :: bs) :: reads) :
    readState p = .ok () (p.hears b (if bs = [] then reads else .data bs :: reads)) := by
  have hvalue : p.test.state / 256 * 256 + b.toNat = b.toNat := by omega
  rw [readState, get_bind, hreads, Process.hears, ← hvalue]
  cases bs with
  | nil => rfl
  | cons b' bs => rfl

theorem handle_unknown (pass : Pass) {b : UInt8} {bs : List UInt8} {reads : Reads}
    (hstate : p.test.state < 256) (hreads : p.ctrl.reads = .data (b :: bs) :: reads)
    (hb : b ∉ knownMessages) :
    ∃ p', iperf_handle_message_client pass p = .error .failed p' ∧ p'.i_errno = IEMESSAGE := by
  have hread := readState_spec hstate hreads
  generalize hq : p.hears b _ = q at hread
  have hvalue : q.test.state = b.toNat := by
    rw [← hq]
    rfl
  have hne : ∀ n : ℕ, UInt8.ofNat n ∈ knownMessages → b.toNat ≠ n := by
    rintro _ hn rfl
    rw [UInt8.ofNat_toNat] at hn
    exact hb hn
  have hlarge : ∀ n : ℕ, 256 ≤ n → b.toNat ≠ n := by
    intro n hn h
    have hlt := b.toNat_lt
    omega
  have hhandle : iperf_handle_message_client pass p = (fail IEMESSAGE : Native Unit) q := by
    rw [iperf_handle_message_client, bind_ok hread, get_bind]
    simp only [hvalue]
    rw [if_neg (hne PARAM_EXCHANGE (by decide)), if_neg (hne CREATE_STREAMS (by decide)),
      if_neg (hne TEST_START (by decide)), if_neg (hne TEST_RUNNING (by decide)),
      if_neg (hne EXCHANGE_RESULTS (by decide)), if_neg (hne DISPLAY_RESULTS (by decide)),
      if_neg (hne IPERF_DONE (by decide)), if_neg (hne SERVER_TERMINATE (by decide)),
      if_neg (hlarge ACCESS_DENIED (by decide)), if_neg (hlarge SERVER_ERROR (by decide))]
  exact ⟨_, hhandle, rfl⟩

/-- A server that refuses the client says -1, one that has failed says -2. Neither message is ever
understood: the client fails with IEMESSAGE, and never with another number than its own. -/
theorem refusal_unheard (hfresh : Fresh p.test) (h : Run p x) :
    (x.status = .ended .failed → x.process.i_errno ∈ reportable) ∧
    ∀ (pass : Pass) (b : UInt8) (bs : List UInt8) (reads : Reads), x.status = .running →
      pass.select = .ready → pass.ctrl_ready = true →
      x.process.ctrl.reads = .data (b :: bs) :: reads → b ∉ knownMessages →
      ∃ p', next x (.pass pass) = some ⟨p', .ended .failed⟩ ∧ p'.i_errno = IEMESSAGE := by
  have hreached := h.reached hfresh
  refine ⟨hreached.failed, ?_⟩
  intro pass b bs reads hrunning hselect hready hreads hb
  obtain ⟨q', hq', herrno⟩ := handle_unknown pass hreached.sound.state hreads hb
  refine ⟨q', ?_, herrno⟩
  rw [next, if_pos hrunning, loopBody]
  simp only [hselect, hready, if_true]
  rw [bind_error hq']
  rfl

theorem refusal_unheard_refused : ∃ (x : Client) (p : Process),
    next x (.pass (refusedPass false)) = some ⟨p, .ended .failed⟩ ∧ p.i_errno = IEMESSAGE := by
  have hfacts : refusedRun.map (fun x : Client => (x.status, x.process.ctrl.reads)) =
      some (.running, [.data [255]]) := by decide +kernel
  obtain ⟨x, hx, hfacts⟩ := Option.map_eq_some_iff.mp hfacts
  obtain ⟨hrunning, hreads⟩ := Prod.mk.inj hfacts
  have hunheard := (refusal_unheard refusedClient_fresh (refusedRun_run hx)).2
    (refusedPass false) 255 [] [] hrunning rfl rfl hreads (by decide)
  exact ⟨x, hunheard⟩

end Runs

end Iperf
