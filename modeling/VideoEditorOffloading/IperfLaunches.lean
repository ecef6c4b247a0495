import VideoEditorOffloading.IperfExchangedBlocks

/-! # Launches of the bandwidth test

What the native side keeps and loses when tests are launched one after the other. -/
namespace IperfMemory

open Iperf OwnedCells

section Runs

variable (A : Allocator Block) {t : Test} {test : ℕ} {c d : Cells Block}

/-- What the loop of the client does with the memory of the test. -/
inductive Operation where
  /-- `iperf_new_stream`, when it succeeds -/
  | create (s : ℕ) (contents : ℕ → UInt8)
  | init (start_times : ℕ → Timeval)
  | send (results : List (Option ℤ))
  | stats (times : ℕ → Timeval)
  | report (last : Bool)
  /-- `iperf_exchange_results`, when it succeeds -/
  | exchange (v : Fields) (memory : List UInt8)

def Operation.execute (test : ℕ) : Operation → Program Block Unit
  | .create s contents => do
    let _ ← iperf_new_stream A test s contents true
  | .init start_times => iperf_init_test A test start_times
  | .send results => iperf_send test results
  | .stats times => iperf_stats_callback A test times
  | .report last => iperf_reporter_callback test last
  | .exchange v memory => do
    let _ ← iperf_exchange_results A test (.read v memory)

def addResult (bytes_sent : iperf_size_t) (result : Option ℤ) : iperf_size_t :=
  result.elim bytes_sent (bytes_sent + UInt64.ofInt ·)

def summarized (t : Test) : Test :=
  match t.streams with
  | [] => t
  | sp :: _ => { t with
      total_sent := sum (·.bytes_sent) t.streams
      total_recv := sum (·.bytes_received) t.streams
      total_time := timeval_diff sp.result.start_time sp.result.end_time }

def Operation.effect (t : Test) : Operation → Test
  | .create s contents => { t with
      streams := Iperf.iperf_add_stream t.streams (newStream t s contents) }
  | .init start_times => initialized t start_times
  | .send results => { t with
      streams := t.streams.mapIdx fun i sp => sentBlock (results.getD i none) sp
      bytes_sent := results.foldl addResult t.bytes_sent }
  | .stats times => { t with
      streams := t.streams.mapIdx fun i sp => sp.stats t.direction (times i) }
  | .report last => if last then summarized t else t
  | .exchange v memory => ((parsed t v memory).map Prod.fst).getD t

def Operation.isInit : Operation → Bool
  | .init _ => true
  | _ => false

def executeAll (test : ℕ) : List Operation → Program Block Unit
  | [] => pure ()
  | op :: ops => do
    op.execute A test
    executeAll test ops

def effects (ops : List Operation) (t : Test) : Test := ops.foldl Operation.effect t

/-- A report dereferences the last interval of every stream, and at the end the first stream. An
exchange dereferences what it looks for in the text. -/
def Operation.Finds (t : Test) : Operation → Prop
  | .report last => (∀ sp ∈ t.streams, sp.result.interval_results ≠ []) ∧
      (last = true → t.streams ≠ [])
  | .exchange v memory => ∃ t', parsed t v memory = some (t', true)
  | _ => True

/-- Every operation finds what it dereferences. -/
def Sound (t : Test) : List Operation → Prop
  | [] => True
  | op :: ops => op.Finds t ∧ Sound (op.effect t) ops

theorem sound_append {ops ops' : List Operation} (h : Sound t ops)
    (h' : Sound (effects ops t) ops') : Sound t (ops ++ ops') := by
  induction ops generalizing t with
  | nil => exact h'
  | cons op ops ih => exact ⟨h.1, ih h.2 h'⟩

/-- A client that has not been initialized, or that will not be again. A second time would lose the
timers. -/
structure Ready (t : Test) (ops : List Operation) : Prop where
  protocol : t.protocol = .Ptcp
  once : ops.countP Operation.isInit ≤ 1
  untimed : Untimed t ∨ ops.countP Operation.isInit = 0
  sound : Sound t ops

/-- What a side hears concerns no timer. -/
theorem parsed_timers {v : Fields} {memory : List UInt8} {t' : Test} {known : Bool}
    (h : parsed t v memory = some (t', known)) :
    t'.protocol = t.protocol ∧ (Untimed t → Untimed t') := by
  obtain ⟨cs, strp, cpu, remote_cpu_util, streams, -, -, -, hlines, rfl⟩ := parsed_spec h
  refine ⟨rfl, fun huntimed =>
    ⟨huntimed.timer, huntimed.stats_timer, huntimed.reporter_timer, ?_⟩⟩
  intro sp' hsp'
  obtain ⟨i, hi, rfl⟩ := List.getElem_of_mem hsp'
  have htold := parseLines_told hlines
  have hi' : i < t.streams.length := by
    rw [htold.length_eq]
    exact hi
  have htimer := huntimed.streams _ (List.getElem_mem hi')
  rcases htold.get hi' hi with hsame | ⟨v', hset⟩
  · exact (congrArg Stream.send_timer hsame).trans htimer
  · refine (congrArg Stream.send_timer hset).trans ?_
    cases t.direction <;> exact htimer

/-- Only the totals are different after a report. -/
theorem report_effect (last : Bool) (t : Test) :
    ((Operation.report last).effect t).protocol = t.protocol ∧
      ((Operation.report last).effect t).timer = t.timer ∧
      ((Operation.report last).effect t).stats_timer = t.stats_timer ∧
      ((Operation.report last).effect t).reporter_timer = t.reporter_timer ∧
      ((Operation.report last).effect t).streams = t.streams := by
  cases last with
  | false => exact ⟨rfl, rfl, rfl, rfl, rfl⟩
  | true =>
    rw [Operation.effect, if_pos rfl, summarized]
    split <;> exact ⟨rfl, rfl, rfl, rfl, rfl⟩

theorem holds_report (last : Bool) (hc : Holds test t c) :
    Holds test ((Operation.report last).effect t) c := by
  cases last with
  | false => exact hc
  | true =>
    rw [Operation.effect, if_pos rfl, summarized]
    split
    · exact hc
    · exact hc.congr rfl

theorem untimed_append (huntimed : Untimed t) (s : ℕ) (contents : ℕ → UInt8) :
    Untimed ((Operation.create s contents).effect t) := by
  refine ⟨huntimed.timer, huntimed.stats_timer, huntimed.reporter_timer, ?_⟩
  intro sp hsp
  simp only [Operation.effect, Iperf.iperf_add_stream] at hsp
  cases hempty : t.streams.isEmpty with
  | true =>
    rw [hempty, if_pos rfl, List.mem_singleton] at hsp
    rw [hsp]
    rfl
  | false =>
    rw [hempty, if_neg Bool.false_ne_true, List.mem_append, List.mem_singleton] at hsp
    rcases hsp with hsp | hsp
    · exact huntimed.streams sp hsp
    · rw [hsp]
      rfl

theorem untimed_mapIdx (huntimed : Untimed t) (f : ℕ → Stream → Stream)
    (hf : ∀ i sp, (f i sp).send_timer = sp.send_timer) :
    Untimed { t with streams := t.streams.mapIdx f } := by
  refine ⟨huntimed.timer, huntimed.stats_timer, huntimed.reporter_timer, ?_⟩
  intro sp hsp
  obtain ⟨i, hi, rfl⟩ := List.mem_mapIdx.mp hsp
  rw [hf]
  exact huntimed.streams _ (List.getElem_mem hi)

theorem untimed_effect {op : Operation} (hop : op.isInit = false) (huntimed : Untimed t) :
    Untimed (op.effect t) := by
  cases op with
  | create s contents => exact untimed_append huntimed s contents
  | init start_times => cases hop
  | send results =>
    have h := untimed_mapIdx huntimed (fun i sp => sentBlock (results.getD i none) sp)
      fun i sp => (sentBlock_same _ sp).2.2
    exact ⟨h.timer, h.stats_timer, h.reporter_timer, h.streams⟩
  | stats times => exact untimed_mapIdx huntimed _ fun i sp => rfl
  | report last =>
    obtain ⟨-, htimer, hstats, hreporter, hstreams⟩ := report_effect last t
    refine ⟨htimer.trans huntimed.timer, hstats.trans huntimed.stats_timer,
      hreporter.trans huntimed.reporter_timer, ?_⟩
    rw [hstreams]
    exact huntimed.streams
  | exchange v memory =>
    rw [Operation.effect]
    cases hparsed : parsed t v memory with
    | none => exact huntimed
    | some result => exact (parsed_timers hparsed).2 huntimed

theorem effect_protocol {op : Operation} (hprot : t.protocol = .Ptcp) :
    (op.effect t).protocol = .Ptcp := by
  cases op with
  | init start_times => simp [Operation.effect, initialized, protocolInitialized, hprot]
  | report last => exact (report_effect last t).1.trans hprot
  | exchange v memory =>
    rw [Operation.effect]
    cases hparsed : parsed t v memory with
    | none => exact hprot
    | some result => exact (parsed_timers hparsed).1.trans hprot
  | _ => exact hprot

theorem ready_effect {op : Operation} {ops : List Operation} (h : Ready t (op :: ops)) :
    Ready (op.effect t) ops := by
  obtain ⟨hprot, honce, huntimed, -, hsound⟩ := h
  rw [List.countP_cons] at honce huntimed
  refine ⟨effect_protocol hprot, by omega, ?_, hsound⟩
  cases hop : op.isInit with
  | true =>
    rw [hop, if_pos rfl] at honce
    exact .inr (by omega)
  | false => exact huntimed.imp (untimed_effect hop) (by omega)

theorem spec_execute (op : Operation) {ops : List Operation} (h : Ready t (op :: ops))
    (hc : Holds test t c) :
    Spec c (op.execute A test) fun _ c' => Holds test (op.effect t) c' := by
  obtain ⟨x, hx, rfl⟩ := hc
  cases op with
  | create s contents =>
    apply (spec_iperf_new_stream A s contents true hx).bind
    rintro sp c hc
    rw [if_pos rfl] at hc
    exact spec_pure hc.2
  | init start_times =>
    have huntimed : Untimed t := by
      refine h.untimed.resolve_right ?_
      rw [List.countP_cons, if_pos (by rfl)]
      omega
    exact spec_init A start_times hx huntimed fun hprot => by
      rw [h.protocol] at hprot
      cases hprot
  | send results =>
    apply (spec_iperf_send results hx).mono
    rintro - c' hc'
    exact hc'.congr rfl
  | stats times => exact spec_stats A times hx
  | report last =>
    obtain ⟨hintervals, hne⟩ := h.sound.1
    apply (spec_report last hx hintervals hne).mono
    rintro - c' hc'
    exact holds_report last hc'
  | exchange v memory =>
    obtain ⟨t', hparsed⟩ := h.sound.1
    apply (spec_iperf_exchange_results A (.read v memory) hx hparsed).bind
    rintro b c ⟨rfl, held, lost, hheld, hlost, rfl⟩
    rw [Multiset.card_eq_zero.mp hlost, add_zero]
    apply spec_pure
    rw [Operation.effect, hparsed]
    exact hheld

theorem spec_executeAll (ops : List Operation) (h : Ready t ops) (hc : Holds test t c) :
    Spec c (executeAll A test ops) fun _ c' => Holds test (effects ops t) c' := by
  induction ops generalizing t c with
  | nil => exact spec_pure hc
  | cons op ops ih =>
    apply (spec_execute A op h hc).bind
    rintro - c' hc'
    exact ih (ready_effect h) hc'

inductive Outcome where
  | done
  | error
  /-- `iperf_init_stream` has failed. -/
  | streamError (s : ℕ) (contents : ℕ → UInt8)
  | exchangeError (e : Exchange)

structure Launch where
  server_ip : List UInt8
  operations : List Operation
  outcome : Outcome

def Launch.client (l : Launch) : Test := effects l.operations { role := .client }

/-- An exchange that fails does not crash. -/
def Outcome.Finds (t : Test) : Outcome → Prop
  | .exchangeError e => ∃ t', e.after t = some (t', false)
  | _ => True

/-- The test is initialized once at most, and no NULL is dereferenced. -/
structure Launch.Regular (l : Launch) : Prop where
  once : l.operations.countP Operation.isInit ≤ 1
  sound : Sound { role := .client } l.operations
  ended : l.outcome.Finds l.client

def main_launch (l : Launch) : Program Block ℕ := do
  let test ← iperf_new_test A
  iperf_defaults A test
  if ← iperf_parse_arguments A test l.server_ip then
    executeAll A test l.operations
    match l.outcome with
    | .done => return test
    | .error => return 0
    | .streamError s contents =>
      let _ ← iperf_new_stream A test s contents false
      return 0
    | .exchangeError e =>
      let _ ← iperf_exchange_results A test e
      return 0
  else return 0

/-- `if (gTest) iperf_free_test (gTest);` -/
def freeOld (gTest : ℕ) : Program Block Unit :=
  if gTest = 0 then pure () else iperf_free_test gTest

def launchBandwidthTest (gTest : ℕ) (l : Launch) : Program Block ℕ := do
  freeOld gTest
  let _server_ip ← malloc A (.text l.server_ip)
  main_launch A l

def launchAll : ℕ → List Launch → Program Block ℕ
  | gTest, [] => pure gTest
  | gTest, l :: ls => do
    let gTest ← launchBandwidthTest A gTest l
    launchAll gTest ls

theorem ready_client {l : Launch} (h : l.Regular) : Ready { role := .client } l.operations :=
  ⟨rfl, h.once, .inl ⟨rfl, rfl, rfl, fun _ hsp => by cases hsp⟩, h.sound⟩

def Launch.result (l : Launch) : Option Test :=
  match l.outcome with
  | .done => some l.client
  | .error | .streamError _ _ | .exchangeError _ => none

def streamBlocks (sp : Stream) : ℕ :=
  3 + sp.send_timer.toNat + sp.result.interval_results.length

/-- How many blocks a test has: itself, the settings, two protocols, the name of the server, the
timers and the streams. -/
def testBlocks (t : Test) : ℕ :=
  5 + t.timer.toNat + t.stats_timer.toNat + t.reporter_timer.toNat +
    (t.streams.map streamBlocks).sum

/-- What nobody has an address of after a launch. -/
def Launch.lost (l : Launch) : ℕ :=
  match l.outcome with
  | .done => 1
  | .error => 1 + testBlocks l.client
  | .streamError _ _ => 1 + testBlocks l.client + 3
  | .exchangeError e => 1 + testBlocks (((e.after l.client).map Prod.fst).getD l.client) + e.lost

theorem card_optional (p : ℕ) (b : Block) :
    Multiset.card (optional p b) = (decide (p ≠ 0)).toNat := by
  by_cases h : p = 0
  · simp [optional, h]
  · simp [optional, h]

theorem card_intervals (intervals : List (ℕ × IntervalResults)) (tail : ℕ) :
    Multiset.card (intervalList.segment intervals tail) = intervals.length := by
  induction intervals with
  | nil => rfl
  | cons i intervals ih =>
    rw [Layout.segment_cons, Multiset.card_add, ih, List.length_cons, add_comm]
    rfl

theorem card_stream (x : PlacedStream) (tail : ℕ) :
    Multiset.card (streamList.cells x tail) = streamBlocks x.stream := by
  have hlength : x.intervals.length = x.stream.result.interval_results.length := by
    rw [← x.recorded, List.length_map]
  simp only [streamList, PlacedStream.parts, Multiset.card_add, Multiset.card_singleton,
    card_optional, card_intervals, streamBlocks, x.timed, hlength]
  omega

theorem card_streams (items : List PlacedStream) (tail : ℕ) :
    Multiset.card (streamList.segment items tail) =
      ((items.map (·.stream)).map streamBlocks).sum := by
  induction items with
  | nil => rfl
  | cons x items ih =>
    rw [Layout.segment_cons, Multiset.card_add, ih, card_stream]
    rfl

theorem Holds.card (h : Holds test t c) : Multiset.card c = testBlocks t := by
  obtain ⟨x, hx, rfl⟩ := h
  simp only [Placement.cells, Placement.parts, Placement.base, Placement.timers,
    Multiset.card_add, Multiset.card_singleton, card_optional, card_streams, hx.streams,
    ← hx.timer, ← hx.stats_timer, ← hx.reporter_timer, hx.unbound,
    decide_eq_true hx.named, testBlocks]
  simp
  omega

inductive Current : ℕ → Option Test → Cells Block → Prop
  | none : Current 0 none 0
  | some {test : ℕ} {t : Test} {c : Cells Block} (hne : test ≠ 0) (hc : Holds test t c) :
    Current test (some t) c

/-- After a failure nobody has the address of the test. -/
theorem spec_main_launch (l : Launch) (h : l.Regular) :
    Spec 0 (main_launch A l) fun gTest c' => ∃ kept lost, Current gTest l.result kept ∧
      Multiset.card lost + 1 = l.lost ∧ c' = kept + lost := by
  apply (spec_iperf_new_test A).bind
  rintro test c ⟨settings, hne, rfl⟩
  apply (spec_iperf_defaults A settings).bind
  rintro - c ⟨tcp, udp, rfl⟩
  apply (spec_iperf_parse_arguments A l.server_ip).bind
  rintro ok c ⟨rfl, hc⟩
  rw [if_pos rfl]
  apply (spec_executeAll A l.operations (ready_client h) hc).bind
  rintro - c hc
  have hcard : Multiset.card c = testBlocks l.client := hc.card
  cases hout : l.outcome with
  | done =>
    refine spec_pure ⟨c, 0, ?_, ?_, (add_zero c).symm⟩
    · rw [Launch.result, hout]
      exact .some hne hc
    · rw [Launch.lost, hout, Multiset.card_zero]
  | error =>
    refine spec_pure ⟨0, c, ?_, ?_, (zero_add c).symm⟩
    · rw [Launch.result, hout]
      exact .none
    · rw [Launch.lost, hout, hcard, add_comm]
  | streamError s contents =>
    obtain ⟨x, hx, rfl⟩ := hc
    apply (spec_iperf_new_stream A s contents false hx).bind
    rintro sp c ⟨rfl, lost, hlost, rfl⟩
    refine spec_pure ⟨0, _, ?_, ?_, (zero_add _).symm⟩
    · rw [Launch.result, hout]
      exact .none
    · simp only [Launch.lost, hout, Multiset.card_add, hcard, hlost]
      omega
  | exchangeError e =>
    obtain ⟨x, hx, rfl⟩ := hc
    have hended := h.ended
    rw [hout] at hended
    obtain ⟨t', he⟩ := hended
    apply (spec_iperf_exchange_results A e hx he).bind
    rintro b c ⟨rfl, held, lost, hheld, hlost, rfl⟩
    refine spec_pure ⟨0, _, ?_, ?_, (zero_add _).symm⟩
    · rw [Launch.result, hout]
      exact .none
    · rw [if_neg Bool.false_ne_true] at hlost
      simp only [Launch.lost, hout, he, Option.map_some, Option.getD_some, Multiset.card_add,
        hheld.card, hlost]
      omega

theorem spec_freeOld {gTest : ℕ} {old : Option Test} (hc : Current gTest old c) :
    Spec c (freeOld gTest) fun _ c' => c' = 0 := by
  cases hc with
  | none => exact spec_pure rfl
  | some hne hc =>
    obtain ⟨x, -, rfl⟩ := hc
    rw [freeOld, if_neg hne]
    exact spec_iperf_free_test x _

/-- The old test is freed. The copy of the name that the launch makes is not. -/
theorem spec_launchBandwidthTest {gTest : ℕ} {old : Option Test} (l : Launch)
    (h : l.Regular) (hc : Current gTest old c) :
    Spec c (launchBandwidthTest A gTest l) fun gTest' c' => ∃ kept lost,
      Current gTest' l.result kept ∧ Multiset.card lost = l.lost ∧ c' = kept + lost := by
  apply (spec_freeOld hc).bind
  rintro - c rfl
  apply spec_malloc_bind A
  intro server_ip _
  rw [add_comm]
  apply ((spec_main_launch A l h).frame {(server_ip, .text l.server_ip)}).mono
  rintro gTest' c ⟨c, ⟨kept, lost, hkept, hlost, rfl⟩, rfl⟩
  refine ⟨kept, lost + {(server_ip, .text l.server_ip)}, hkept, ?_, add_assoc _ _ _⟩
  rw [Multiset.card_add, Multiset.card_singleton, hlost]

theorem spec_launchAll {gTest : ℕ} {old : Option Test} (ls : List Launch)
    (h : ∀ l ∈ ls, l.Regular) (hc : Current gTest old c) :
    Spec c (launchAll A gTest ls) fun gTest' c' => ∃ kept lost,
      Current gTest' (ls.foldl (fun _ l => l.result) old) kept ∧
        Multiset.card lost = (ls.map Launch.lost).sum ∧ c' = kept + lost := by
  induction ls generalizing gTest old c with
  | nil => exact spec_pure ⟨c, 0, hc, rfl, (add_zero c).symm⟩
  | cons l ls ih =>
    apply (spec_launchBandwidthTest A l (h l List.mem_cons_self) hc).bind
    rintro gTest' c ⟨kept, lost, hkept, hlost, rfl⟩
    apply ((ih (fun l' hl' => h l' (List.mem_cons_of_mem l hl')) hkept).frame lost).mono
    rintro gTest'' c ⟨c, ⟨kept', lost', hkept', hlost', rfl⟩, rfl⟩
    refine ⟨kept', lost' + lost, hkept', ?_, add_assoc _ _ _⟩
    rw [Multiset.card_add, hlost', hlost, List.map_cons, List.sum_cons, add_comm]

theorem foldl_result (ls : List Launch) :
    ls.foldl (fun _ l => l.result) none = ls.getLast?.bind Launch.result := by
  rcases List.eq_nil_or_concat ls with rfl | ⟨before, last, rfl⟩
  · rfl
  · rw [List.concat_eq_append, List.foldl_append, List.getLast?_append]
    rfl

/-- `"-C 0\n1:5,0,0,0\n"` -/
def exampleText : List UInt8 :=
  [45, 67, 32, 48, 10, 49, 58, 53, 44, 48, 44, 48, 44, 48, 10, 0]

/-- The results of the client cannot be sent. -/
def failedLaunch : Launch :=
  ⟨[49], [.create 7 fun _ => 0, .init fun _ => ⟨0, 0⟩], .exchangeError .unsent⟩

/-- One stream, one interval, and the results of the server. -/
def completedLaunch : Launch :=
  ⟨[49], [.create 7 fun _ => 0, .init fun _ => ⟨0, 0⟩, .stats fun _ => ⟨1, 0⟩,
    .exchange {} exampleText, .report true], .done⟩

theorem failedLaunch_regular : failedLaunch.Regular :=
  ⟨by decide, ⟨trivial, trivial, trivial⟩, _, rfl⟩

theorem completedLaunch_regular : completedLaunch.Regular := by
  refine ⟨by decide, ⟨trivial, trivial, trivial, ?_, ⟨?_, fun _ => ?_⟩, trivial⟩, trivial⟩
  · obtain ⟨⟨t', known⟩, hparsed, rfl⟩ := Option.map_eq_some_iff.mp
      (show (parsed (effects (completedLaunch.operations.take 3) { role := .client }) {}
        exampleText).map Prod.snd = some true by decide +kernel)
    exact ⟨t', hparsed⟩
  · decide +kernel
  · decide +kernel

theorem completedLaunch_blocks : testBlocks completedLaunch.client = 10 := by decide +kernel

/-- A test that has been run to its end is freed as a whole, and nothing else is. -/
theorem freed_whole (l : Launch) (hdone : l.outcome = .done)
    (h : l.Regular) (m : Memory Block) (hnull : 0 ∉ m.heap) :
    ∃ test m' m'', main_launch A l m = .ok (test, m') ∧
      m'.heap.keys.card = m.heap.keys.card + testBlocks l.client ∧
      iperf_free_test test m' = .ok ((), m'') ∧ m''.heap = m.heap := by
  obtain ⟨rest, hrest⟩ := exists_owns hnull
  obtain ⟨test, c, m', hrun, ⟨kept, lost, hkept, hlost, rfl⟩, howns⟩ :=
    spec_main_launch A l h rest m (by rw [zero_add]; exact hrest)
  simp only [Launch.lost, hdone] at hlost
  have hzero : lost = 0 := Multiset.card_eq_zero.mp (by omega)
  rw [hzero, add_zero] at howns
  rw [Launch.result, hdone] at hkept
  cases hkept with
  | some hne hc =>
    have hcard := hc.card
    obtain ⟨x, -, rfl⟩ := hc
    obtain ⟨⟨⟩, c, m'', hfree, rfl, howns'⟩ := spec_iperf_free_test x _ rest m' howns
    rw [zero_add] at howns'
    refine ⟨test, m', m'', hrun, ?_, hfree, howns'.heap_eq hrest⟩
    rw [howns.card_eq, hrest.card_eq, Multiset.card_add, hcard, add_comm]

theorem freed_whole_example : ∃ test m' m'',
    main_launch (Allocator.above Block) completedLaunch { heap := ∅ } = .ok (test, m') ∧
      m'.heap.keys.card = 0 + 10 ∧ iperf_free_test test m' = .ok ((), m'') ∧ m''.heap = ∅ := by
  have hfreed := freed_whole (Allocator.above Block) completedLaunch rfl completedLaunch_regular
    { heap := ∅ } Finmap.notMem_empty
  rwa [completedLaunch_blocks] at hfreed

end Runs

end IperfMemory
